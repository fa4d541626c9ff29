import Janus86.ElfModel

/-!
# The symbol table of the loader

The inner loop of `read_symbol_table` takes the size of an entry off the size of the
section until nothing is left, so it ends only for sections that consist of whole
entries.  The block of the table has as many bytes as there are entries, and one more, in
whole units: two pointers fit into it, and three do not.
-/

namespace Janus86
namespace Elf

open StepMachine

/-- The pointers to the whole entries of a section. -/
def wholeEntries (elfPtr : ℕ) (shdr : Shdr) : List ℕ :=
  (List.range (shdr.shSize / ELF_STENTRY_SIZE)).map fun j =>
    elfPtrAt elfPtr (shdr.shOffset + j * ELF_STENTRY_SIZE)

/-- The symbol tables among the sections, in the order of the section table. -/
def symbolTables (mem : Buffer) (elfPtr : ℕ) (elfShdr : ℕ → ℕ) : List Shdr :=
  ((List.range (eShnum mem elfPtr)).map fun i => shdrAt mem (elfShdr i)).filter
    Shdr.isSymbolTable

/-- The table as it should be. -/
def symbolEntries (mem : Buffer) (elfPtr : ℕ) (elfShdr : ℕ → ℕ) : List ℕ :=
  (symbolTables mem elfPtr elfShdr).flatMap (wholeEntries elfPtr)

/-- The table as it is. -/
def SymCursor.listing (c : SymCursor) : List ℕ := (List.range c.symtabNum).map c.table.entries

/-- `read_symbol_table` ends and makes one entry for each whole entry of the symbol tables,
in their order, and `symtab_num` is their number. -/
def ReadsSymbols (alloc : Allocator) (names : SymbolNames) (mem : Buffer) (elfPtr : ℕ)
    (elfShdr : ℕ → ℕ) (h : Allocated) : Prop :=
  ∃ elfSym c, (∃ enough, ∀ fuel, enough ≤ fuel →
      readSymbolTable alloc names fuel mem elfPtr elfShdr h = .ok (elfSym, c)) ∧
    c.listing = symbolEntries mem elfPtr elfShdr ∧
    c.symtabNum = (symbolEntries mem elfPtr elfShdr).length

variable {alloc : Allocator} {names : SymbolNames} {mem : Buffer} {elfPtr : ℕ}
  {elfShdr : ℕ → ℕ} {elfSym : Block} {shdr : Shdr} {c : SymCursor} {fuel : ℕ}

theorem length_wholeEntries (elfPtr : ℕ) (shdr : Shdr) :
    (wholeEntries elfPtr shdr).length = shdr.shSize / ELF_STENTRY_SIZE := by
  simp [wholeEntries]

theorem shSize_lt (mem : Buffer) (p : ℕ) : (shdrAt mem p).shSize < 2 ^ 32 := le32_lt mem _

/-! ## One entry -/

/-- The pointer for entry `i` fits into the block of the table, and its name into the
buffer of `kprintf`. -/
structure Room (names : SymbolNames) (elfSym : Block) (i : ℕ) : Prop where
  block : elfSym.ptr ≠ 0
  inside : 4 * i + 4 ≤ elfSym.usable
  printed : (names i).length < 100

theorem storeEntry_inside {table : Block} {i : ℕ} (bytes p : ℕ) (t : Filling)
    (hinside : table.ptr ≠ 0 ∧ 4 * i + 4 ≤ table.usable) :
    storeEntry alloc table bytes i p t =
      .ok ⟨Function.update t.entries i p, (kmalloc alloc bytes t.heap).2⟩ := by
  simp only [storeEntry, storeInside, if_pos hinside, bind, Except.bind, pure, Except.pure,
    Function.update_idem]

theorem storeEntry_outside {table : Block} {i : ℕ} (bytes p : ℕ) (t : Filling)
    (houtside : ¬ (table.ptr ≠ 0 ∧ 4 * i + 4 ≤ table.usable)) :
    storeEntry alloc table bytes i p t = .error .outsideBlock := by
  simp only [storeEntry, storeInside, if_neg houtside, bind, Except.bind]

/-- The cursor behind one more entry. -/
def SymCursor.next (c : SymCursor) (alloc : Allocator) (elfPtr : ℕ) (shdr : Shdr) :
    SymCursor where
  tabSize := sub32 c.tabSize ELF_STENTRY_SIZE
  tabEntry := c.tabEntry + 1
  symtabNum := c.symtabNum + 1
  table :=
    ⟨Function.update c.table.entries c.symtabNum
      (elfPtrAt elfPtr (shdr.shOffset + c.tabEntry * ELF_STENTRY_SIZE)),
      (kmalloc alloc ELF_STENTRY_SIZE c.table.heap).2⟩

theorem symbolTurn_end (hsize : c.tabSize = 0) :
    symbolTurn alloc names elfPtr elfSym shdr c = .stop (.ok c) :=
  if_pos hsize

theorem symbolTurn_next (hsize : c.tabSize ≠ 0) (hroom : Room names elfSym c.symtabNum) :
    symbolTurn alloc names elfPtr elfSym shdr c =
      if 2 ^ 31 ≤ c.symtabNum + 1 then .stop (.error .signedOverflow)
      else .next (c.next alloc elfPtr shdr) := by
  rw [symbolTurn, if_neg hsize, storeEntry_inside _ _ _ ⟨hroom.block, hroom.inside⟩,
    printName, if_pos hroom.printed]
  rfl

theorem symbolTurn_full (hsize : c.tabSize ≠ 0) (hfull : ¬ Room names elfSym c.symtabNum) :
    symbolTurn alloc names elfPtr elfSym shdr c = .stop (.error .outsideBlock) := by
  rw [symbolTurn, if_neg hsize]
  by_cases hinside : elfSym.ptr ≠ 0 ∧ 4 * c.symtabNum + 4 ≤ elfSym.usable
  · have hprint : ¬ (names c.symtabNum).length < 100 := fun hprint =>
      hfull ⟨hinside.1, hinside.2, hprint⟩
    rw [storeEntry_inside _ _ _ hinside, printName, if_neg hprint]
  · rw [storeEntry_outside _ _ _ hinside]

theorem listing_next (c : SymCursor) :
    (c.next alloc elfPtr shdr).listing =
      c.listing ++ [elfPtrAt elfPtr (shdr.shOffset + c.tabEntry * ELF_STENTRY_SIZE)] := by
  simp only [SymCursor.listing, SymCursor.next, List.range_succ, List.map_append,
    List.map_singleton, Function.update_self, List.append_cancel_right_eq]
  apply List.map_congr_left
  intro i hi
  exact Function.update_of_ne (List.mem_range.mp hi).ne _ _

/-! ## One section -/

/-- The loop goes over `k` whole entries. -/
theorem symbol_loop_whole (k : ℕ) (hsize : c.tabSize = k * ELF_STENTRY_SIZE)
    (hlt : c.tabSize < 2 ^ 32) (hcount : c.symtabNum + k < 2 ^ 31)
    (hroom : ∀ i, c.symtabNum ≤ i → i < c.symtabNum + k → Room names elfSym i) :
    ∃ c' : SymCursor,
      (∀ fuel, k < fuel →
        runFuel (symbolTurn alloc names elfPtr elfSym shdr) fuel c = some (.ok c')) ∧
      c'.symtabNum = c.symtabNum + k ∧
      c'.listing = c.listing ++ (List.range k).map fun j =>
        elfPtrAt elfPtr (shdr.shOffset + (c.tabEntry + j) * ELF_STENTRY_SIZE) := by
  induction k generalizing c with
  | zero =>
      refine ⟨c, fun fuel hfuel => ?_, rfl, by simp⟩
      obtain ⟨fuel, rfl⟩ := Nat.exists_eq_add_of_lt hfuel
      exact runFuel_succ_of_stop (symbolTurn_end (by simpa using hsize)) _
  | succ k ih =>
      have hne : c.tabSize ≠ 0 := by
        simp only [hsize, ELF_STENTRY_SIZE]
        omega
      have hturn : symbolTurn alloc names elfPtr elfSym shdr c =
          .next (c.next alloc elfPtr shdr) := by
        rw [symbolTurn_next hne (hroom _ le_rfl (by omega)), if_neg (by omega)]
      have hrest : (c.next alloc elfPtr shdr).tabSize = k * ELF_STENTRY_SIZE := by
        simp only [SymCursor.next, ELF_STENTRY_SIZE, sub32] at hsize ⊢
        omega
      have hnext : (c.next alloc elfPtr shdr).symtabNum = c.symtabNum + 1 := rfl
      obtain ⟨c', hrun, hnum, hlist⟩ := @ih (c.next alloc elfPtr shdr) hrest
        (by simp only [ELF_STENTRY_SIZE] at hsize hrest; omega) (by omega)
        (fun i hle hlt => hroom i (by omega) (by omega))
      refine ⟨c', fun fuel hfuel => ?_, by omega, ?_⟩
      · obtain ⟨fuel, rfl⟩ : ∃ n, fuel = n + 1 := ⟨fuel - 1, by omega⟩
        rw [runFuel_succ_of_next hturn]
        exact hrun fuel (by omega)
      · have hshift : ∀ j, (c.next alloc elfPtr shdr).tabEntry + j = c.tabEntry + (j + 1) := by
          intro j
          simp only [SymCursor.next]
          omega
        simp only [hlist, hshift, listing_next, List.append_assoc, List.singleton_append,
          List.range_succ_eq_map, List.map_cons, List.map_map, Nat.add_zero]
        rfl

/-- A loop that ends has gone over whole entries, and there was room for each of them. -/
theorem whole_of_symbol_loop {c' : SymCursor} (hlt : c.tabSize < 2 ^ 32)
    (hnum : c.symtabNum < 2 ^ 31)
    (hrun : runFuel (symbolTurn alloc names elfPtr elfSym shdr) fuel c =
      some (.ok c')) :
    ELF_STENTRY_SIZE ∣ c.tabSize ∧ c'.symtabNum < 2 ^ 31 ∧
      c'.symtabNum = c.symtabNum + c.tabSize / ELF_STENTRY_SIZE ∧
      ∀ i, c.symtabNum ≤ i → i < c'.symtabNum → Room names elfSym i := by
  induction fuel generalizing c with
  | zero => simp [runFuel] at hrun
  | succ fuel ih =>
      by_cases hsize : c.tabSize = 0
      · rw [runFuel_succ_of_stop (symbolTurn_end hsize)] at hrun
        cases Option.some.inj hrun
        rw [hsize]
        exact ⟨Nat.dvd_zero _, hnum, rfl, fun i hle hlt => absurd hlt (by omega)⟩
      · have hroom : Room names elfSym c.symtabNum := by
          by_contra hfull
          rw [runFuel_succ_of_stop (symbolTurn_full hsize hfull)] at hrun
          cases Option.some.inj hrun
        have hturn := @symbolTurn_next alloc names elfPtr elfSym shdr c hsize hroom
        by_cases hover : 2 ^ 31 ≤ c.symtabNum + 1
        · rw [if_pos hover] at hturn
          rw [runFuel_succ_of_stop hturn] at hrun
          cases Option.some.inj hrun
        · rw [if_neg hover] at hturn
          rw [runFuel_succ_of_next hturn] at hrun
          have hrest : (c.next alloc elfPtr shdr).tabSize = sub32 c.tabSize 16 := rfl
          have hcount : (c.next alloc elfPtr shdr).symtabNum = c.symtabNum + 1 := rfl
          obtain ⟨hdvd, hlast, heq, hrooms⟩ := @ih (c.next alloc elfPtr shdr)
            (by rw [hrest, sub32]; exact Nat.mod_lt _ (by decide)) (by omega) hrun
          rw [hrest] at hdvd heq
          simp only [sub32, ELF_STENTRY_SIZE] at hdvd heq ⊢
          refine ⟨by omega, hlast, by omega, fun i hle hlt => ?_⟩
          rcases Nat.eq_or_lt_of_le hle with rfl | hgt
          · exact hroom
          · exact hrooms i (by omega) hlt

/-! ## All sections -/

/-- The pointers that the sections `is` add to the table. -/
def entriesOf (mem : Buffer) (elfPtr : ℕ) (elfShdr : ℕ → ℕ) (is : List ℕ) : List ℕ :=
  ((is.map fun i => shdrAt mem (elfShdr i)).filter Shdr.isSymbolTable).flatMap
    (wholeEntries elfPtr)

theorem entriesOf_cons (i : ℕ) (is : List ℕ) :
    entriesOf mem elfPtr elfShdr (i :: is) =
      (if (shdrAt mem (elfShdr i)).isSymbolTable then
        wholeEntries elfPtr (shdrAt mem (elfShdr i)) else []) ++
        entriesOf mem elfPtr elfShdr is := by
  unfold entriesOf
  rw [List.map_cons, List.filter_cons]
  split <;> simp

/-- The sections that are symbol tables consist of whole entries. -/
def AllWhole (mem : Buffer) (elfShdr : ℕ → ℕ) (is : List ℕ) : Prop :=
  ∀ i ∈ is, (shdrAt mem (elfShdr i)).isSymbolTable = true →
    ELF_STENTRY_SIZE ∣ (shdrAt mem (elfShdr i)).shSize

theorem symbolSection_other {i : ℕ} (hother : ¬ (shdrAt mem (elfShdr i)).isSymbolTable = true) :
    symbolSection alloc names fuel mem elfPtr elfShdr elfSym c i = .ok c :=
  if_neg hother

theorem symbolSection_table {i : ℕ} (htable : (shdrAt mem (elfShdr i)).isSymbolTable = true) :
    symbolSection alloc names fuel mem elfPtr elfShdr elfSym c i =
      (runFuel (symbolTurn alloc names elfPtr elfSym (shdrAt mem (elfShdr i))) fuel
        { c with tabSize := (shdrAt mem (elfShdr i)).shSize, tabEntry := 0 }).getD
        (.error .outOfFuel) :=
  if_pos htable

/-- A section of whole entries is gone over. -/
theorem symbolSection_whole {i : ℕ} (htable : (shdrAt mem (elfShdr i)).isSymbolTable = true)
    (hwhole : ELF_STENTRY_SIZE ∣ (shdrAt mem (elfShdr i)).shSize)
    (hcount : c.symtabNum + (wholeEntries elfPtr (shdrAt mem (elfShdr i))).length < 2 ^ 31)
    (hroom : ∀ j, c.symtabNum ≤ j →
      j < c.symtabNum + (wholeEntries elfPtr (shdrAt mem (elfShdr i))).length →
      Room names elfSym j) :
    ∃ c' : SymCursor,
      (∀ fuel, 2 ^ 28 ≤ fuel →
        symbolSection alloc names fuel mem elfPtr elfShdr elfSym c i = .ok c') ∧
      c'.symtabNum =
        c.symtabNum + (wholeEntries elfPtr (shdrAt mem (elfShdr i))).length ∧
      c'.listing = c.listing ++ wholeEntries elfPtr (shdrAt mem (elfShdr i)) := by
  have hlt := shSize_lt mem (elfShdr i)
  rw [length_wholeEntries] at hcount hroom ⊢
  obtain ⟨c', hrun, hnum, hlist⟩ :=
    @symbol_loop_whole alloc names elfPtr elfSym (shdrAt mem (elfShdr i))
      { c with tabSize := (shdrAt mem (elfShdr i)).shSize, tabEntry := 0 }
      ((shdrAt mem (elfShdr i)).shSize / ELF_STENTRY_SIZE) (Nat.div_mul_cancel hwhole).symm hlt
      hcount hroom
  refine ⟨c', fun fuel hfuel => ?_, hnum, ?_⟩
  · have hturns : (shdrAt mem (elfShdr i)).shSize / ELF_STENTRY_SIZE < fuel := by
      simp only [ELF_STENTRY_SIZE]
      omega
    rw [symbolSection_table htable, hrun fuel hturns]
    rfl
  · simp only [hlist, Nat.zero_add]
    rfl

/-- Sections whose symbol tables consist of whole entries are gone over. -/
theorem sections_whole {is : List ℕ} (hwhole : AllWhole mem elfShdr is)
    (hcount : c.symtabNum + (entriesOf mem elfPtr elfShdr is).length < 2 ^ 31)
    (hroom : ∀ i, c.symtabNum ≤ i →
      i < c.symtabNum + (entriesOf mem elfPtr elfShdr is).length → Room names elfSym i) :
    ∃ c' : SymCursor,
      (∀ fuel, 2 ^ 28 ≤ fuel →
        is.foldlM (symbolSection alloc names fuel mem elfPtr elfShdr elfSym) c =
          .ok c') ∧
      c'.symtabNum = c.symtabNum + (entriesOf mem elfPtr elfShdr is).length ∧
      c'.listing = c.listing ++ entriesOf mem elfPtr elfShdr is := by
  induction is generalizing c with
  | nil => exact ⟨c, fun _ _ => rfl, rfl, by simp [entriesOf]⟩
  | cons i is ih =>
      have hrest : AllWhole mem elfShdr is := fun j hj => hwhole j (List.mem_cons_of_mem i hj)
      rw [entriesOf_cons] at hcount hroom ⊢
      by_cases htable : (shdrAt mem (elfShdr i)).isSymbolTable = true
      · rw [if_pos htable, List.length_append] at hcount hroom ⊢
        obtain ⟨c₁, hfirst, hnum, hlist⟩ :=
          @symbolSection_whole alloc names mem elfPtr elfShdr elfSym c i htable
            (hwhole i List.mem_cons_self htable) (by omega)
            fun j hle hlt => hroom j hle (by omega)
        obtain ⟨c', hrun, hnum', hlist'⟩ := @ih c₁ hrest (by omega)
          fun j hle hlt => hroom j (by omega) (by omega)
        refine ⟨c', fun fuel hfuel => ?_, by omega, ?_⟩
        · rw [List.foldlM_cons, hfirst fuel hfuel]
          exact hrun fuel hfuel
        · rw [hlist', hlist, List.append_assoc]
      · rw [if_neg htable, List.nil_append] at hcount hroom ⊢
        obtain ⟨c', hrun, hnum, hlist⟩ := @ih c hrest hcount hroom
        refine ⟨c', fun fuel hfuel => ?_, hnum, hlist⟩
        rw [List.foldlM_cons, symbolSection_other htable]
        exact hrun fuel hfuel

/-- So a section that is gone over consists of whole entries. -/
theorem whole_of_section {i : ℕ} {c' : SymCursor}
    (htable : (shdrAt mem (elfShdr i)).isSymbolTable = true) (hnum : c.symtabNum < 2 ^ 31)
    (hrun : symbolSection alloc names fuel mem elfPtr elfShdr elfSym c i = .ok c') :
    ELF_STENTRY_SIZE ∣ (shdrAt mem (elfShdr i)).shSize ∧ c'.symtabNum < 2 ^ 31 ∧
      c'.symtabNum =
        c.symtabNum + (wholeEntries elfPtr (shdrAt mem (elfShdr i))).length ∧
      ∀ j, c.symtabNum ≤ j → j < c'.symtabNum → Room names elfSym j := by
  rw [symbolSection_table htable] at hrun
  rw [length_wholeEntries]
  cases hloop : runFuel (symbolTurn alloc names elfPtr elfSym
      (shdrAt mem (elfShdr i))) fuel
      { c with tabSize := (shdrAt mem (elfShdr i)).shSize, tabEntry := 0 } with
  | none =>
      rw [hloop] at hrun
      cases hrun
  | some result =>
      rw [hloop, Option.getD_some] at hrun
      rw [hrun] at hloop
      exact @whole_of_symbol_loop alloc names elfPtr elfSym (shdrAt mem (elfShdr i))
        { c with tabSize := (shdrAt mem (elfShdr i)).shSize, tabEntry := 0 } fuel c'
        (shSize_lt mem (elfShdr i)) hnum hloop

/-- If the sections are gone over, their symbol tables consist of whole entries, and there
was room for all of them. -/
theorem whole_of_sections {is : List ℕ} {c' : SymCursor} (hnum : c.symtabNum < 2 ^ 31)
    (hrun : is.foldlM (symbolSection alloc names fuel mem elfPtr elfShdr elfSym) c =
      .ok c') :
    AllWhole mem elfShdr is ∧
      ∀ i, c.symtabNum ≤ i →
        i < c.symtabNum + (entriesOf mem elfPtr elfShdr is).length → Room names elfSym i := by
  induction is generalizing c with
  | nil =>
      refine ⟨fun i hi => absurd hi List.not_mem_nil, fun i hle hlt => ?_⟩
      rw [show (entriesOf mem elfPtr elfShdr []).length = 0 from rfl] at hlt
      omega
  | cons i is ih =>
      rw [List.foldlM_cons] at hrun
      obtain ⟨c₁, hfirst, hlater⟩ := bind_eq_ok_iff.mp hrun
      rw [AllWhole, List.forall_mem_cons, entriesOf_cons]
      by_cases htable : (shdrAt mem (elfShdr i)).isSymbolTable = true
      · obtain ⟨hdvd, hlt, hcount, hrooms⟩ := whole_of_section htable hnum hfirst
        obtain ⟨hrest, hmore⟩ := @ih c₁ hlt hlater
        rw [if_pos htable, List.length_append]
        refine ⟨⟨fun _ => hdvd, hrest⟩, fun j hle hbelow => ?_⟩
        rcases Nat.lt_or_ge j c₁.symtabNum with hearly | hlate
        · exact hrooms j hle hearly
        · exact hmore j hlate (by omega)
      · rw [symbolSection_other htable] at hfirst
        cases hfirst
        obtain ⟨hrest, hrooms⟩ := @ih c hnum hlater
        rw [if_neg htable, List.nil_append]
        exact ⟨⟨fun htable' => absurd htable' htable, hrest⟩, hrooms⟩

/-! ## The block of the table -/

/-- With whole entries the first pass adds up their sizes. -/
theorem sumSizes_whole {is : List ℕ} (hwhole : AllWhole mem elfShdr is) {size : ℕ}
    (hsize : size < 2 ^ 32) :
    is.foldl (fun size i =>
        let shdr := shdrAt mem (elfShdr i)
        if shdr.isSymbolTable then (size + shdr.shSize) % 2 ^ 32 else size) size =
      (size + ELF_STENTRY_SIZE * (entriesOf mem elfPtr elfShdr is).length) % 2 ^ 32 := by
  induction is generalizing size with
  | nil => exact (Nat.mod_eq_of_lt hsize).symm
  | cons i is ih =>
      have hrest : AllWhole mem elfShdr is := fun j hj => hwhole j (List.mem_cons_of_mem i hj)
      rw [List.foldl_cons, entriesOf_cons]
      dsimp only
      by_cases htable : (shdrAt mem (elfShdr i)).isSymbolTable = true
      · have hdvd := Nat.mul_div_cancel' (hwhole i List.mem_cons_self htable)
        rw [if_pos htable, if_pos htable, ih hrest (Nat.mod_lt _ (Nat.two_pow_pos 32)),
          List.length_append, length_wholeEntries, Nat.mul_add, hdvd, Nat.mod_add_mod,
          Nat.add_assoc]
      · rw [if_neg htable, if_neg htable, ih hrest hsize, List.nil_append]

theorem symtabBytes_whole
    (hwhole : AllWhole mem elfShdr (List.range (eShnum mem elfPtr))) :
    symtabBytes mem elfPtr elfShdr =
      (symbolEntries mem elfPtr elfShdr).length % 2 ^ 28 + 1 := by
  have hsum : sumSizes mem elfPtr elfShdr Shdr.isSymbolTable 0 =
      (0 + ELF_STENTRY_SIZE * (symbolEntries mem elfPtr elfShdr).length) % 2 ^ 32 :=
    sumSizes_whole hwhole (Nat.two_pow_pos 32)
  rw [symtabBytes, hsum]
  simp only [ELF_STENTRY_SIZE]
  omega

theorem kmalloc_fst (bytes : ℕ) (h : Allocated) :
    (kmalloc alloc bytes h).1 = ⟨alloc h bytes, bytes⟩ := by
  unfold kmalloc
  dsimp only
  split <;> rfl

/-- At most two entries, with a block for them, and their names can be printed. -/
structure TableFits (alloc : Allocator) (names : SymbolNames) (h : Allocated) (n : ℕ) :
    Prop where
  few : n ≤ 2
  block : 0 < n → alloc h (n + 1) ≠ 0
  printed : ∀ i < n, (names i).length < 100

theorem room_iff (n : ℕ) (h : Allocated) :
    (∀ i, 0 ≤ i → i < 0 + n → Room names (kmalloc alloc (n % 2 ^ 28 + 1) h).1 i) ↔
      TableFits alloc names h n := by
  rw [kmalloc_fst]
  constructor
  · intro hrooms
    have hfew : n ≤ 2 := by
      by_contra hmany
      have hinside := (hrooms (n - 1) (Nat.zero_le _) (by omega)).inside
      simp only [Block.usable, Kmalloc.nunits, Kmalloc.sizeofHeader,
        Nat.add_sub_cancel] at hinside
      omega
    refine ⟨hfew, fun hpos => ?_, fun i hi => (hrooms i (Nat.zero_le _) (by omega)).printed⟩
    have hblock := (hrooms 0 le_rfl (by omega)).block
    rwa [Nat.mod_eq_of_lt (by omega)] at hblock
  · rintro ⟨hfew, hblock, hprinted⟩ i _ hi
    rw [Nat.mod_eq_of_lt (show n < 2 ^ 28 by omega)]
    refine ⟨hblock (by omega), ?_, hprinted i (by omega)⟩
    simp only [Block.usable, Kmalloc.nunits, Kmalloc.sizeofHeader, Nat.add_sub_cancel]
    omega

/-- `read_symbol_table` reads the symbol tables exactly when all of them consist of whole
entries, and the table of the entries fits into its block. -/
theorem readsSymbols_iff (alloc : Allocator) (names : SymbolNames) (mem : Buffer)
    (elfPtr : ℕ) (elfShdr : ℕ → ℕ) (h : Allocated) :
    ReadsSymbols alloc names mem elfPtr elfShdr h ↔
      (∀ shdr ∈ symbolTables mem elfPtr elfShdr, ELF_STENTRY_SIZE ∣ shdr.shSize) ∧
        TableFits alloc names h (symbolEntries mem elfPtr elfShdr).length := by
  have htables : (∀ shdr ∈ symbolTables mem elfPtr elfShdr, ELF_STENTRY_SIZE ∣ shdr.shSize) ↔
      AllWhole mem elfShdr (List.range (eShnum mem elfPtr)) := by
    simp only [symbolTables, List.mem_filter, List.mem_map, AllWhole]
    constructor
    · intro hall i hi htable
      exact hall _ ⟨⟨i, hi, rfl⟩, htable⟩
    · rintro hall shdr ⟨⟨i, hi, rfl⟩, htable⟩
      exact hall i hi htable
  rw [htables]
  constructor
  · rintro ⟨elfSym, c, ⟨enough, hruns⟩, -, -⟩
    have hrun := hruns enough le_rfl
    simp only [readSymbolTable] at hrun
    obtain ⟨last, hfold, -⟩ := bind_eq_ok_iff.mp hrun
    obtain ⟨hwhole, hrooms⟩ := whole_of_sections (Nat.two_pow_pos 31) hfold
    rw [symtabBytes_whole hwhole] at hrooms
    exact ⟨hwhole, (room_iff _ h).mp hrooms⟩
  · rintro ⟨hwhole, hfits⟩
    have hfew := hfits.few
    have hrooms := (room_iff _ h).mpr hfits
    rw [← symtabBytes_whole hwhole] at hrooms
    have hcount : 0 + (symbolEntries mem elfPtr elfShdr).length < 2 ^ 31 := by omega
    obtain ⟨c', hruns, hnum, hlist⟩ :=
      @sections_whole alloc names mem elfPtr elfShdr
        (kmalloc alloc (symtabBytes mem elfPtr elfShdr) h).1
        ⟨0, 0, 0, ⟨fun _ => 0, (kmalloc alloc (symtabBytes mem elfPtr elfShdr) h).2⟩⟩
        (List.range (eShnum mem elfPtr)) hwhole hcount hrooms
    have htotal : c'.symtabNum = (symbolEntries mem elfPtr elfShdr).length :=
      hnum.trans (Nat.zero_add _)
    refine ⟨(kmalloc alloc (symtabBytes mem elfPtr elfShdr) h).1, c',
      ⟨2 ^ 28, fun fuel hfuel => ?_⟩, hlist, htotal⟩
    simp only [readSymbolTable, hruns fuel hfuel]
    rfl

/-- The header of an image with one section, a symbol table of 8 bytes. -/
def halfEntry : Buffer := fun o =>
  if o = 32 then 52 else if o = 48 then 1 else if o = 56 then 2 else if o = 72 then 8 else 0

/-- The loop takes 16 from 8, and does not come by 0 any more. -/
theorem half_entry_not_read :
    ¬ ∀ (alloc : Allocator) (names : SymbolNames) (mem : Buffer) (elfPtr : ℕ)
      (elfShdr : ℕ → ℕ) (h : Allocated), ReadsSymbols alloc names mem elfPtr elfShdr h := by
  intro hclaim
  obtain ⟨elfSym, c, ⟨enough, hruns⟩, -, -⟩ :=
    hclaim (fun _ _ => 8192) (fun _ => []) halfEntry 0 (fun _ => 52) ⟨[], []⟩
  obtain ⟨last, hfold, -⟩ := bind_eq_ok_iff.mp (hruns enough le_rfl)
  have hwhole := (whole_of_sections (Nat.two_pow_pos 31) hfold).1 0 (by decide) (by decide)
  exact absurd hwhole (by decide)

end Elf
end Janus86
