import Janus86.FileListing

/-!
# What a listing has put into its nodes

The nodes of a listing are blocks with old contents.  What a driver has put into
them is what it puts into nodes whose `filename` is empty: such a listing marks
the bytes that were written, and on any other nodes the driver does the same over
the old bytes.  `ls -l` prints the nodes whose name is not empty and looks up
their types in a table.
-/

namespace Janus86

/-! ## ls -l -/

/-- The array `file_type` of the shell. -/
def fileTypeNames : List String :=
  [" Unknown", " File", " Directory", " Char Device", " Blk Device", " Pipe",
    " Socket", " Sym Link"]

structure LsLine where
  typeName : String
  size : ℕ
  start : ℕ
  name : List UInt8

/-- The loop of `cmd_ls` for `-l`. -/
def lsLong : List FsProperties → Except Fault (List LsLine)
  | [] => .ok []
  | node :: rest =>
      if node.name = [] then lsLong rest
      else
        match fileTypeNames[node.fileType]? with
        | none => .error .outOfBounds
        | some typeName => do
            let lines ← lsLong rest
            pure (⟨typeName, node.size, node.start, node.name⟩ :: lines)

/-- The node is not printed, or its type has a name. -/
def Named (node : FsProperties) : Prop :=
  node.name ≠ [] → node.fileType < fileTypeNames.length

theorem lsLong_ok_iff (nodes : List FsProperties) :
    (∃ lines, lsLong nodes = .ok lines) ↔ ∀ node ∈ nodes, Named node := by
  induction nodes with
  | nil => exact iff_of_true ⟨[], rfl⟩ fun _ h => absurd h List.not_mem_nil
  | cons node rest ih =>
      rw [List.forall_mem_cons, ← ih, lsLong]
      by_cases hname : node.name = []
      · rw [if_pos hname]
        exact (and_iff_right fun h => absurd hname h).symm
      · rw [if_neg hname]
        by_cases htype : node.fileType < fileTypeNames.length
        · have hnamed : Named node := fun _ => htype
          rw [List.getElem?_eq_getElem htype, and_iff_right hnamed]
          constructor
          · rintro ⟨lines, hlines⟩
            obtain ⟨lines', hlines', _⟩ := bind_eq_ok_iff.mp hlines
            exact ⟨lines', hlines'⟩
          · rintro ⟨lines, hlines⟩
            rw [hlines]
            exact ⟨_, rfl⟩
        · rw [List.getElem?_eq_none (Nat.not_lt.mp htype)]
          refine iff_of_false ?_ fun h => htype (h.1 hname)
          rintro ⟨lines, hlines⟩
          cases hlines

/-! ## Marks -/

/-- A list on empty nodes. -/
def emptyCursor (n : ℕ) : ListCursor := ⟨[], blank.node, List.replicate n blank⟩

/-- A node with a mark of what was written into it; `Old` is what the array held
before. -/
structure Over (Old : List UInt8 → Prop) (node mark : FsProperties) : Prop where
  written : mark.filename <+: node.filename
  fileType : mark.name ≠ [] → node.fileType = mark.fileType
  untouched : mark.filename = [] → Old node.filename

structure OverList (Old : List UInt8 → Prop) (c mark : ListCursor) : Prop where
  done : List.Forall₂ (Over Old) c.done mark.done
  temp : Over Old c.temp mark.temp
  fresh : c.fresh.length = mark.fresh.length
  old : ∀ block ∈ c.fresh, Old block.node.filename
  empty : ∀ block ∈ mark.fresh, block = blank

/-- A node that is printed has a name that was written in this listing, with its NUL,
and a type in the table. -/
def Printable (node mark : FsProperties) : Prop :=
  node.name ≠ [] → 0 ∈ mark.filename ∧ node.fileType < fileTypeNames.length

/-- Whatever its nodes held before, the listing can be printed. -/
def ListsPrintable (n : ℕ) (run : ListCursor → Except Fault ListCursor) : Prop :=
  ∀ node fresh, fresh.length = n → ∃ c mark, run ⟨[], node, fresh⟩ = .ok c ∧
    run (emptyCursor n) = .ok mark ∧ List.Forall₂ Printable c.listing mark.listing

variable {Old : List UInt8 → Prop} {node mark mark' : FsProperties}

theorem cString_of_prefix {bytes more : List UInt8} (hstart : bytes <+: more)
    (hzero : 0 ∈ bytes) : cString more = cString bytes := by
  obtain ⟨rest, rfl⟩ := hstart
  induction bytes with
  | nil => exact absurd hzero List.not_mem_nil
  | cons c bytes ih =>
      by_cases hc : c = 0
      · simp [cString, hc]
      · have htail : 0 ∈ bytes := (List.mem_cons.mp hzero).resolve_left (Ne.symm hc)
        have hsame := ih htail
        unfold cString at hsame ⊢
        rw [List.cons_append, List.takeWhile_cons_of_pos (by simpa using hc),
          List.takeWhile_cons_of_pos (by simpa using hc), hsame]

theorem over_blank (hold : Old node.filename) : Over Old node blank.node :=
  ⟨List.nil_prefix, fun h => absurd rfl h, fun _ => hold⟩

/-- With its NUL a name is read from what was written. -/
theorem Over.printable_iff (hover : Over Old node mark) (hzero : 0 ∈ mark.filename) :
    Printable node mark ↔ Named mark := by
  have hname : node.name = mark.name := cString_of_prefix hover.written hzero
  unfold Printable Named
  rw [hname]
  exact imp_congr_right fun hne => by rw [hover.fileType hne, and_iff_right hzero]

theorem Over.written_setName (hover : Over Old node mark) (name : List UInt8) :
    name ++ 0 :: mark.filename.drop (name.length + 1) <+:
      name ++ 0 :: node.filename.drop (name.length + 1) :=
  (List.prefix_append_right_inj name).mpr (List.cons_prefix_cons.mpr
    ⟨rfl, hover.written.drop (name.length + 1)⟩)

theorem Over.setName (hover : Over Old node mark)
    (htype : node.fileType = mark.fileType) {name : List UInt8}
    (hset : mark.setName name = .ok mark') :
    ∃ node', node.setName name = .ok node' ∧ Over Old node' mark' := by
  obtain ⟨hfits, rfl⟩ := setName_eq_ok_iff.mp hset
  refine ⟨_, setName_eq_ok_iff.mpr ⟨hfits, rfl⟩, hover.written_setName name,
    fun _ => htype, fun h => ?_⟩
  exact absurd h (List.append_ne_nil_of_right_ne_nil _ (List.cons_ne_nil _ _))

theorem nextNode_blank {m m' : ListCursor} (hempty : ∀ block ∈ m.fresh, block = blank)
    (hnext : nextNode m = .ok m') :
    ∃ rest, m.fresh = blank :: rest ∧ m' = ⟨m.done ++ [m.temp], blank.node, rest⟩ := by
  unfold nextNode at hnext
  cases hfresh : m.fresh with
  | nil =>
      rw [hfresh] at hnext
      cases hnext
  | cons block rest =>
      rw [hfresh] at hnext hempty
      obtain rfl : block = blank := hempty block List.mem_cons_self
      cases hnext
      exact ⟨rest, rfl, rfl⟩

theorem putName_blank {m m' : ListCursor} {name : List UInt8}
    (hempty : ∀ block ∈ m.fresh, block = blank) (hput : putName name m = .ok m') :
    ∃ rest, m.fresh = blank :: rest ∧ m' =
      ⟨m.done ++ [{ m.temp with
        filename := name ++ 0 :: m.temp.filename.drop (name.length + 1) }],
        blank.node, rest⟩ := by
  obtain ⟨temp, hset, hnext⟩ := bind_eq_ok_iff.mp hput
  obtain ⟨_, rfl⟩ := setName_eq_ok_iff.mp hset
  let named : ListCursor := { m with temp := { m.temp with
    filename := name ++ 0 :: m.temp.filename.drop (name.length + 1) } }
  exact @nextNode_blank named m' hempty hnext

theorem OverList.nextNode {c m m' : ListCursor} (hover : OverList Old c m)
    (hnext : nextNode m = .ok m') :
    ∃ c', Janus86.nextNode c = .ok c' ∧ OverList Old c' m' := by
  obtain ⟨rest, hmark, rfl⟩ := nextNode_blank hover.empty hnext
  have hlength := hover.fresh
  have hempty := hover.empty
  have hold := hover.old
  rw [hmark] at hlength hempty
  cases hfresh : c.fresh with
  | nil =>
      rw [hfresh] at hlength
      cases hlength
  | cons block rest' =>
      rw [hfresh] at hlength hold
      obtain ⟨hfirst, hold⟩ := List.forall_mem_cons.mp hold
      refine ⟨⟨c.done ++ [c.temp], block.node, rest'⟩, ?_, ?_, over_blank hfirst,
        Nat.succ.inj hlength, hold, (List.forall_mem_cons.mp hempty).2⟩
      · unfold Janus86.nextNode
        rw [hfresh]
        rfl
      · exact List.rel_append hover.done (.cons hover.temp .nil)

theorem OverList.putName {c m m' : ListCursor} (hover : OverList Old c m)
    (htype : c.temp.fileType = m.temp.fileType) {name : List UInt8}
    (hput : putName name m = .ok m') :
    ∃ c', Janus86.putName name c = .ok c' ∧ OverList Old c' m' := by
  obtain ⟨temp, hset, hnext⟩ := bind_eq_ok_iff.mp hput
  obtain ⟨node, hset', htemp⟩ := hover.temp.setName htype hset
  have hnamed : OverList Old { c with temp := node } { m with temp := temp } :=
    ⟨hover.done, htemp, hover.fresh, hover.old, hover.empty⟩
  obtain ⟨c', hnext', hover'⟩ := hnamed.nextNode hnext
  refine ⟨c', ?_, hover'⟩
  unfold Janus86.putName
  rw [hset', ok_bind]
  exact hnext'

/-! ## Listings -/

/-- The run on empty nodes marks the runs on all others. -/
structure Marks (n : ℕ) (run : ListCursor → Except Fault ListCursor)
    (mark : ListCursor) : Prop where
  marked : run (emptyCursor n) = .ok mark
  writes : ∀ (Old : List UInt8 → Prop) (c : ListCursor), OverList Old c (emptyCursor n) →
    ∃ c', run c = .ok c' ∧ OverList Old c' mark
  ended : ∀ node ∈ mark.done, 0 ∈ node.filename

theorem forall₂_printable_iff {nodes marks : List FsProperties}
    (hover : List.Forall₂ (Over Old) nodes marks) (hzero : ∀ m ∈ marks, 0 ∈ m.filename) :
    List.Forall₂ Printable nodes marks ↔ ∀ m ∈ marks, Named m := by
  induction hover with
  | nil => exact iff_of_true .nil fun _ h => absurd h List.not_mem_nil
  | cons hfirst _ ih =>
      obtain ⟨hhead, htail⟩ := List.forall_mem_cons.mp hzero
      rw [List.forall₂_cons, List.forall_mem_cons, hfirst.printable_iff hhead, ih htail]

theorem overList_empty {n : ℕ} {fresh : List FreshBlock} (hfresh : fresh.length = n)
    (hnode : Old node.filename) (hold : ∀ block ∈ fresh, Old block.node.filename) :
    OverList Old ⟨[], node, fresh⟩ (emptyCursor n) :=
  ⟨.nil, over_blank hnode, hfresh.trans List.length_replicate.symm, hold,
    fun _ h => List.eq_of_mem_replicate h⟩

/-- A block in which every byte of the name is a one. -/
def fullBlock : FreshBlock := ⟨⟨0, 0, 0, List.replicate 255 1⟩, fun _ => 1⟩

theorem forall₂_concat_iff {α β : Type} {R : α → β → Prop} {as : List α} {bs : List β}
    (hlength : as.length = bs.length) {a : α} {b : β} :
    List.Forall₂ R (as ++ [a]) (bs ++ [b]) ↔ List.Forall₂ R as bs ∧ R a b := by
  induction as generalizing bs with
  | nil =>
      obtain rfl := List.length_eq_zero_iff.mp hlength.symm
      simp
  | cons a' as ih =>
      cases bs with
      | nil => cases hlength
      | cons b' bs =>
          rw [List.cons_append, List.cons_append, List.forall₂_cons, List.forall₂_cons,
            ih (Nat.succ.inj hlength), and_assoc]

theorem OverList.printable_iff {c mark : ListCursor} (hover : OverList Old c mark)
    (hended : ∀ node ∈ mark.done, 0 ∈ node.filename) :
    List.Forall₂ Printable c.listing mark.listing ↔
      (∀ node ∈ mark.done, Named node) ∧ Printable c.temp mark.temp := by
  rw [ListCursor.listing, ListCursor.listing, forall₂_concat_iff hover.done.length_eq,
    forall₂_printable_iff hover.done hended]

/-- The name of a full node shows, unless a NUL was written into it. -/
theorem Over.name_ne_nil (hover : Over (· = fullBlock.node.filename) node mark)
    (hzero : 0 ∉ mark.filename) : node.name ≠ [] := by
  have hhead : ∃ c rest, node.filename = c :: rest ∧ c ≠ 0 := by
    cases hmark : mark.filename with
    | nil => exact ⟨1, List.replicate 254 1, hover.untouched hmark, by decide⟩
    | cons c written =>
        obtain ⟨rest, hrest⟩ := hover.written
        rw [hmark] at hrest hzero
        exact ⟨c, written ++ rest, hrest.symm, fun h => hzero (h ▸ List.mem_cons_self)⟩
  obtain ⟨c, rest, hfilename, hc⟩ := hhead
  unfold FsProperties.name cString
  rw [hfilename, List.takeWhile_cons_of_pos (by simpa using hc)]
  exact List.cons_ne_nil _ _

/-- The last node must not be left without a name, whose old one is printed
otherwise. -/
theorem listsPrintable_iff {n : ℕ} {run : ListCursor → Except Fault ListCursor}
    {mark : ListCursor} (hrun : Marks n run mark) :
    ListsPrintable n run ↔
      (∀ node ∈ mark.done, Named node) ∧ 0 ∈ mark.temp.filename ∧ Named mark.temp := by
  constructor
  · intro hprints
    obtain ⟨c, mark', hc, hmark', hall⟩ := hprints fullBlock.node
      (List.replicate n fullBlock) List.length_replicate
    obtain ⟨c', hc', hover⟩ := hrun.writes (· = fullBlock.node.filename)
      ⟨[], fullBlock.node, List.replicate n fullBlock⟩
      (overList_empty List.length_replicate rfl
        fun block hblock => by rw [List.eq_of_mem_replicate hblock])
    rw [hrun.marked] at hmark'
    cases hmark'
    rw [hc] at hc'
    cases hc'
    obtain ⟨hdone, htemp⟩ := (hover.printable_iff hrun.ended).mp hall
    have hzero : 0 ∈ mark.temp.filename := by
      by_contra hzero
      exact hzero (htemp (hover.temp.name_ne_nil hzero)).1
    exact ⟨hdone, hzero, (hover.temp.printable_iff hzero).mp htemp⟩
  · rintro ⟨hdone, hzero, htemp⟩ node fresh hfresh
    obtain ⟨c, hc, hover⟩ := hrun.writes (fun _ => True) ⟨[], node, fresh⟩
      (overList_empty hfresh trivial fun _ _ => trivial)
    exact ⟨c, mark, hc, hrun.marked, (hover.printable_iff hrun.ended).mpr
      ⟨hdone, (hover.temp.printable_iff hzero).mpr htemp⟩⟩

/-- `ls -l` looks up the types of such nodes inside the table. -/
theorem lsLong_of_printable {nodes marks : List FsProperties}
    (hall : List.Forall₂ Printable nodes marks) : ∃ lines, lsLong nodes = .ok lines := by
  rw [lsLong_ok_iff]
  induction hall with
  | nil => exact fun _ h => absurd h List.not_mem_nil
  | cons hprint _ ih =>
      exact List.forall_mem_cons.mpr ⟨fun hname => (hprint hname).2, ih⟩

end Janus86
