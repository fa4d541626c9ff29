import Janus86.ElfModel

/-!
# The blocks of the loader

`elf_load` asks for as many bytes as its tables have pointers, and frees the table of the
program headers twice.  So no run of it comes to an end without a store outside its
blocks or a wrong call of `kfree`: a run that gets as far as the calls of `kfree` stops at
the second one for the same table, and the loops before them cannot go on for ever
without leaving their block.
-/

namespace Janus86
namespace Elf

open StepMachine

/-- A store outside the blocks, or a wrong call of `kfree`. -/
def Corrupts (e : ElfFault) : Prop :=
  e = .outsideBlock ∨ e = .notAllocated ∨ e = .freedTwice

def Harmless (e : ElfFault) : Prop := ¬ Corrupts e

/-- The loader stores inside the blocks that `kmalloc` returned, with room for every
pointer of its tables, and frees only such blocks, each at most once. -/
def KeepsHeap (alloc : Allocator) (names : SymbolNames) (mem : Buffer)
    (elfPtr strtabSize : ℕ) (h : Allocated) : Prop :=
  ∀ fuel, FreeOf Corrupts (elfLoad alloc names fuel mem elfPtr strtabSize h)

variable {alloc : Allocator} {names : SymbolNames} {mem : Buffer} {elfPtr : ℕ}
  {elfShdr : ℕ → ℕ} {elfSym : Block} {shdr : Shdr} {c : SymCursor} {h : Allocated} {fuel : ℕ}

/-! ## What does not end a run without harm -/

theorem kfree_freeOf (p : ℕ) (h : Allocated) : FreeOf Harmless (kfree p h) := by
  unfold kfree
  split
  · exact FreeOf.error (by simp [Harmless, Corrupts])
  · split
    · exact FreeOf.error (by simp [Harmless, Corrupts])
    · exact FreeOf.ok _

theorem storeInside_freeOf (b : Block) (o : ℕ) : FreeOf Harmless (storeInside b o) := by
  unfold storeInside
  split
  · exact FreeOf.ok _
  · exact FreeOf.error (by simp [Harmless, Corrupts])

theorem storeEntry_freeOf (table : Block) (bytes i p : ℕ) (t : Filling) :
    FreeOf Harmless (storeEntry alloc table bytes i p t) := by
  unfold storeEntry
  exact (storeInside_freeOf _ _).bind fun _ _ =>
    (storeInside_freeOf _ _).bind fun _ _ => FreeOf.ok _

theorem printName_freeOf (name : List UInt8) : FreeOf Harmless (printName name) := by
  unfold printName
  split
  · exact FreeOf.ok _
  · exact FreeOf.error (by simp [Harmless, Corrupts])

theorem readHeaders_freeOf (num bytes : ℕ) (header : ℕ → ℕ) (h : Allocated) :
    FreeOf Harmless (readHeaders alloc num bytes header h) := by
  unfold readHeaders
  exact (FreeOf.foldlM (fun t i => storeEntry_freeOf _ _ _ _ _) _ _).bind fun _ _ =>
    FreeOf.ok _

/-! ## The loop over the symbols -/

theorem usable_le (b : Block) : b.usable ≤ b.bytes + 7 := by
  simp only [Block.usable, Kmalloc.nunits, Kmalloc.sizeofHeader, Nat.add_sub_cancel]
  omega

theorem kmalloc_bytes (nbytes : ℕ) (h : Allocated) :
    (kmalloc alloc nbytes h).1.bytes = nbytes := by
  unfold kmalloc
  dsimp only
  split <;> rfl

theorem sumSizes_lt (pick : Shdr → Bool) :
    sumSizes mem elfPtr elfShdr pick 0 < 2 ^ 32 := by
  have hfold : ∀ (is : List ℕ) (size : ℕ), size < 2 ^ 32 →
      is.foldl (fun size i =>
        let shdr := shdrAt mem (elfShdr i)
        if pick shdr then (size + shdr.shSize) % 2 ^ 32 else size) size < 2 ^ 32 := by
    intro is
    induction is with
    | nil => exact fun size hsize => hsize
    | cons i is ih =>
        intro size hsize
        refine ih _ ?_
        dsimp only
        split
        · exact Nat.mod_lt _ (Nat.two_pow_pos 32)
        · exact hsize
  exact hfold _ 0 (Nat.two_pow_pos 32)

theorem symtabBytes_le : symtabBytes mem elfPtr elfShdr ≤ 2 ^ 28 := by
  have hsum := @sumSizes_lt mem elfPtr elfShdr Shdr.isSymbolTable
  simp only [symtabBytes, ELF_STENTRY_SIZE]
  omega

/-- A store that succeeds is inside the block. -/
theorem storeEntry_ok {table : Block} {bytes i p : ℕ} {t t' : Filling}
    (hstore : storeEntry alloc table bytes i p t = .ok t') :
    4 * i + 4 ≤ table.usable := by
  unfold storeEntry at hstore
  obtain ⟨_, hcheck, -⟩ := bind_eq_ok_iff.mp hstore
  unfold storeInside at hcheck
  split at hcheck
  · next hinside => exact hinside.2
  · contradiction

/-- The loop leaves its block before it is out of fuel, and before `symtab_num`
overflows. -/
theorem symbol_loop_freeOf (hbytes : elfSym.bytes ≤ 2 ^ 28) (hpos : 0 < fuel)
    (hfuel : 2 ^ 26 + 3 ≤ c.symtabNum + fuel) :
    FreeOf Harmless
      ((runFuel (symbolTurn alloc names elfPtr elfSym shdr) fuel c).getD
        (.error .outOfFuel)) := by
  have husable := usable_le elfSym
  induction fuel generalizing c with
  | zero => omega
  | succ fuel ih =>
      by_cases hsize : c.tabSize = 0
      · have hturn : symbolTurn alloc names elfPtr elfSym shdr c = .stop (.ok c) :=
          if_pos hsize
        rw [runFuel_succ_of_stop hturn]
        exact FreeOf.ok c
      · have hfree := @storeEntry_freeOf alloc elfSym ELF_STENTRY_SIZE c.symtabNum
          (elfPtrAt elfPtr (shdr.shOffset + c.tabEntry * ELF_STENTRY_SIZE)) c.table
        cases hstore : storeEntry alloc elfSym ELF_STENTRY_SIZE c.symtabNum
            (elfPtrAt elfPtr (shdr.shOffset + c.tabEntry * ELF_STENTRY_SIZE)) c.table with
        | error e =>
            have hturn : symbolTurn alloc names elfPtr elfSym shdr c =
                .stop (.error e) := by
              rw [symbolTurn, if_neg hsize, hstore]
            rw [runFuel_succ_of_stop hturn, Option.getD_some]
            exact FreeOf.error fun hharmless => hfree e hharmless hstore
        | ok table =>
            have hinside := storeEntry_ok hstore
            have hcount : ¬ 2 ^ 31 ≤ c.symtabNum + 1 := by omega
            cases hprint : printName (names c.symtabNum) with
            | error e =>
                have hturn : symbolTurn alloc names elfPtr elfSym shdr c =
                    .stop (.error e) := by
                  rw [symbolTurn, if_neg hsize, hstore, hprint]
                rw [runFuel_succ_of_stop hturn, Option.getD_some]
                exact FreeOf.error fun hharmless => printName_freeOf _ e hharmless hprint
            | ok _ =>
                have hturn : symbolTurn alloc names elfPtr elfSym shdr c =
                    .next ⟨sub32 c.tabSize ELF_STENTRY_SIZE, c.tabEntry + 1,
                      c.symtabNum + 1, table⟩ := by
                  rw [symbolTurn, if_neg hsize, hstore, hprint]
                  simp only [if_neg hcount]
                rw [runFuel_succ_of_next hturn]
                exact ih (by omega) (by simp only; omega)

theorem readSymbolTable_freeOf (hfuel : 2 ^ 27 ≤ fuel) :
    FreeOf Harmless (readSymbolTable alloc names fuel mem elfPtr elfShdr h) := by
  have hbytes : (kmalloc alloc (symtabBytes mem elfPtr elfShdr) h).1.bytes ≤ 2 ^ 28 := by
    rw [kmalloc_bytes]
    exact symtabBytes_le
  unfold readSymbolTable
  refine (FreeOf.foldlM (fun c i => ?_) _ _).bind fun _ _ => FreeOf.ok _
  unfold symbolSection
  dsimp only
  split
  · exact symbol_loop_freeOf hbytes (by omega) (by omega)
  · exact FreeOf.ok c

/-! ## The whole loader -/

/-- The second call of `kfree` for a pointer fails. -/
theorem kfree_twice (p : ℕ) (h : Allocated) (rest : Allocated → Except ElfFault Allocated)
    (h' : Allocated) : (kfree p h >>= fun h => kfree p h >>= rest) ≠ .ok h' := by
  intro hok
  obtain ⟨h₁, hfirst, hagain⟩ := bind_eq_ok_iff.mp hok
  obtain ⟨h₂, hsecond, -⟩ := bind_eq_ok_iff.mp hagain
  unfold kfree at hfirst
  split at hfirst
  · contradiction
  · split at hfirst
    · contradiction
    · rename_i hknown _
      cases hfirst
      unfold kfree at hsecond
      rw [if_neg hknown, if_pos List.mem_cons_self] at hsecond
      contradiction

/-- Every run with enough fuel ends with harm. -/
theorem exists_corrupts (alloc : Allocator) (names : SymbolNames) (mem : Buffer)
    (elfPtr strtabSize : ℕ) (h : Allocated) (hfuel : 2 ^ 27 ≤ fuel) :
    ∃ e, Corrupts e ∧ elfLoad alloc names fuel mem elfPtr strtabSize h = .error e := by
  have hfree : FreeOf Harmless (elfLoad alloc names fuel mem elfPtr strtabSize h) := by
    unfold elfLoad
    refine (readHeaders_freeOf _ _ _ _).bind fun _ _ => ?_
    refine (readSymbolTable_freeOf hfuel).bind fun _ _ => ?_
    refine (readHeaders_freeOf _ _ _ _).bind fun _ _ => ?_
    refine (kfree_freeOf _ _).bind fun _ _ => ?_
    refine (kfree_freeOf _ _).bind fun _ _ => ?_
    refine (kfree_freeOf _ _).bind fun _ _ => ?_
    refine (kfree_freeOf _ _).bind fun _ _ => ?_
    refine (kfree_freeOf _ _).bind fun _ _ => ?_
    exact kfree_freeOf _ _
  cases hrun : elfLoad alloc names fuel mem elfPtr strtabSize h with
  | error e => exact ⟨e, not_not.mp fun hharmless => hfree e hharmless hrun, rfl⟩
  | ok h' =>
      unfold elfLoad at hrun
      obtain ⟨_, _, hrun⟩ := bind_eq_ok_iff.mp hrun
      obtain ⟨_, _, hrun⟩ := bind_eq_ok_iff.mp hrun
      obtain ⟨_, _, hrun⟩ := bind_eq_ok_iff.mp hrun
      obtain ⟨_, _, hrun⟩ := bind_eq_ok_iff.mp hrun
      obtain ⟨_, _, hrun⟩ := bind_eq_ok_iff.mp hrun
      obtain ⟨_, _, hrun⟩ := bind_eq_ok_iff.mp hrun
      exact absurd hrun (kfree_twice _ _ _ h')

/-- No image is loaded without harm to the heap. -/
theorem not_keepsHeap (alloc : Allocator) (names : SymbolNames) (mem : Buffer)
    (elfPtr strtabSize : ℕ) (h : Allocated) :
    ¬ KeepsHeap alloc names mem elfPtr strtabSize h := by
  intro hkeeps
  obtain ⟨e, hcorrupts, hrun⟩ := exists_corrupts alloc names mem elfPtr strtabSize h le_rfl
  exact hkeeps (2 ^ 27) e hcorrupts hrun

/-- An allocator that takes one block behind the other. -/
def blockAfterBlock : Allocator := fun h _ => 8192 + 256 * h.blocks.length

/-- An image without sections, program headers and symbols, in a block of its own: the table
of the program headers is freed twice. -/
theorem phdr_freed_twice :
    ¬ ∀ (alloc : Allocator) (names : SymbolNames) (mem : Buffer) (elfPtr strtabSize : ℕ)
      (h : Allocated), KeepsHeap alloc names mem elfPtr strtabSize h := by
  intro hclaim
  have hkeeps := hclaim blockAfterBlock (fun _ => []) (fun _ => 0) 4096 0 ⟨[⟨4096, 52⟩], []⟩
  refine hkeeps 1 .freedTwice (Or.inr (Or.inr rfl)) ?_
  rfl

end Elf
end Janus86
