import Janus86.StepMachine

/-!
# The page tables

`page_init` in `src/mm/pageinit.c` writes the page directory to
`PAGE_TABLE_ADDR` and the page tables behind it, each filled up with zeros to a
page boundary.  The number of directory entries is `pg_frames >> 10 + 1`, which
C reads as `pg_frames >> 11`: half of the page tables are in the directory, and
the upper half of memory is not mapped.
-/

namespace Janus86
namespace Paging

open StepMachine

def PAGE_TABLE_ADDR : ℕ := 0x01000000
def PAGE_PRESENT : ℕ := 0x0001
def PAGE_READ_WRITE : ℕ := 0x0002

/-- `kptr`, the double words of memory by their addresses, and the addresses
that have been stored to. -/
structure Cursor where
  kptr : ℕ
  mem : ℕ → ℕ
  stored : List ℕ

/-- `*(kptr++) = value` -/
def Cursor.put (value : ℕ) (c : Cursor) : Cursor where
  kptr := (c.kptr + 4) % 2 ^ 32
  mem := Function.update c.mem c.kptr value
  stored := c.kptr :: c.stored

/-- `for(; i--; entry += offset) *(kptr++) = entry;` -/
def fill (offset : ℕ) : ℕ → ℕ → Cursor → Cursor
  | 0, _, c => c
  | i + 1, entry, c => fill offset i ((entry + offset) % 2 ^ 32) (c.put entry)

/-- A turn of `for(; (unsigned long)kptr & 0xfff;) *(kptr++) = 0;` -/
def padTurn (c : Cursor) : Turn Cursor Cursor :=
  if c.kptr &&& 0xfff ≠ 0 then .next (c.put 0) else .stop c

def pgOffset : ℕ := 0x00001000

/-- `page_init` with `MEM_SIZE` as a parameter, and a bound on the turns of
each of its padding loops. -/
def pageInit (fuel memSize : ℕ) (mem : ℕ → ℕ) : Option Cursor := do
  let pgFrames := memSize >>> 12
  -- the sum binds tighter than the shift
  let pgTables := pgFrames >>> (10 + 1)
  let pgDirEntry :=
    pgOffset ||| PAGE_PRESENT ||| PAGE_READ_WRITE ||| PAGE_TABLE_ADDR
  let c := fill pgOffset pgTables pgDirEntry ⟨PAGE_TABLE_ADDR, mem, []⟩
  let c ← runFuel padTurn fuel c
  let pgTableEntry := PAGE_PRESENT ||| PAGE_READ_WRITE
  let c := fill pgOffset pgFrames pgTableEntry c
  runFuel padTurn fuel c

/-- `page_init` called with the memory `mem` returns and leaves `c`. -/
def PageInitReturns (memSize : ℕ) (mem : ℕ → ℕ) (c : Cursor) : Prop :=
  ∃ fuel, pageInit fuel memSize mem = some c

/-! ## The page walk of the processor -/

/-- The page that an entry points to. -/
def pageOf (entry : ℕ) : ℕ := entry / 4096 * 4096

def present (entry : ℕ) : Bool := entry.testBit 0

def writable (entry : ℕ) : Bool := entry.testBit 1

/-- The two-level walk from `cr3`: the physical address of `a`, and whether it
may be written to. -/
def pageWalk (mem : ℕ → ℕ) (cr3 a : ℕ) : Option (ℕ × Bool) :=
  let pde := mem (cr3 + 4 * (a / 2 ^ 22))
  if present pde then
    let pte := mem (pageOf pde + 4 * (a / 2 ^ 12 % 1024))
    if present pte then
      some (pageOf pte + a % 4096, writable pde && writable pte)
    else none
  else none

/-- The tables map the memory to itself, and lead to written tables only. -/
structure MapsMemory (memSize : ℕ) (c : Cursor) : Prop where
  identity : ∀ a, a < memSize →
    pageWalk c.mem PAGE_TABLE_ADDR a = some (a, true)
  tables : ∀ j, j < 1024 → present (c.mem (PAGE_TABLE_ADDR + 4 * j)) →
    ∀ i, i < 1024 →
      pageOf (c.mem (PAGE_TABLE_ADDR + 4 * j)) + 4 * i ∈ c.stored

/-! ## The loops -/

section Loops

variable {offset n entry : ℕ} {c : Cursor}

theorem put_kptr (hkptr : c.kptr + 4 < 2 ^ 32) (value : ℕ) :
    (c.put value).kptr = c.kptr + 4 :=
  Nat.mod_eq_of_lt hkptr

theorem fill_kptr (hend : c.kptr + 4 * n < 2 ^ 32) :
    (fill offset n entry c).kptr = c.kptr + 4 * n := by
  induction n generalizing c entry with
  | zero => rfl
  | succ n ih =>
      have hnext := put_kptr (c := c) (by omega) entry
      rw [fill, ih (by omega), hnext]
      omega

theorem fill_mem_of_not {x : ℕ} (hend : c.kptr + 4 * n < 2 ^ 32)
    (hx : x < c.kptr ∨ c.kptr + 4 * n ≤ x) :
    (fill offset n entry c).mem x = c.mem x := by
  induction n generalizing c entry with
  | zero => rfl
  | succ n ih =>
      have hnext := put_kptr (c := c) (by omega) entry
      have hne : x ≠ c.kptr := by omega
      rw [fill, ih (by omega) (by omega)]
      simp [Cursor.put, hne]

theorem fill_mem {i : ℕ} (hi : i < n) (hend : c.kptr + 4 * n < 2 ^ 32)
    (hentry : entry + offset * n < 2 ^ 32) :
    (fill offset n entry c).mem (c.kptr + 4 * i) = entry + offset * i := by
  induction n generalizing c entry i with
  | zero => omega
  | succ n ih =>
      have hnext := put_kptr (c := c) (by omega) entry
      rw [Nat.mul_succ] at hentry
      have hsum : (entry + offset) % 2 ^ 32 = entry + offset :=
        Nat.mod_eq_of_lt (by omega)
      rw [fill, hsum]
      cases i with
      | zero =>
          rw [fill_mem_of_not (by omega) (by omega)]
          simp [Cursor.put]
      | succ i =>
          have hplace : c.kptr + 4 * (i + 1) = (c.put entry).kptr + 4 * i := by
            omega
          rw [hplace, ih (by omega) (by omega) (by omega), Nat.mul_succ]
          omega

theorem mem_fill_stored (hend : c.kptr + 4 * n < 2 ^ 32) (x : ℕ) :
    x ∈ (fill offset n entry c).stored ↔
      x ∈ c.stored ∨ ∃ i < n, x = c.kptr + 4 * i := by
  induction n generalizing c entry with
  | zero => simp [fill]
  | succ n ih =>
      have hnext := put_kptr (c := c) (by omega) entry
      rw [fill, ih (by omega), hnext]
      simp only [Cursor.put, List.mem_cons]
      constructor
      · rintro ((rfl | hx) | ⟨i, hi, rfl⟩)
        · exact Or.inr ⟨0, by omega, rfl⟩
        · exact Or.inl hx
        · exact Or.inr ⟨i + 1, by omega, by omega⟩
      · rintro (hx | ⟨i, hi, rfl⟩)
        · exact Or.inl (Or.inr hx)
        · cases i with
          | zero => exact Or.inl (Or.inl rfl)
          | succ i => exact Or.inr ⟨i, by omega, by omega⟩

theorem and_fff (k : ℕ) : k &&& 0xfff = k % 4096 :=
  Nat.and_two_pow_sub_one_eq_mod k 12

theorem pad_halts (hkptr : c.kptr % 4 = 0) (hn : (c.kptr + 4 * n) % 4096 = 0)
    (hless : 4 * n < 4096) (hend : c.kptr + 4 * n < 2 ^ 32) :
    Halts padTurn c (fill 0 n 0 c) := by
  induction n generalizing c with
  | zero =>
      have hpage : c.kptr &&& 0xfff = 0 := by rw [and_fff]; omega
      exact Halts.of_stop (by simp [padTurn, hpage, fill])
  | succ n ih =>
      have hpage : ¬ c.kptr &&& 0xfff = 0 := by rw [and_fff]; omega
      have hnext := put_kptr (c := c) (by omega) 0
      have hturn : padTurn c = .next (c.put 0) := by simp [padTurn, hpage]
      exact Halts.of_next hturn
        (ih (by omega) (by omega) (by omega) (by omega))

end Loops

theorem pageInitReturns_iff {memSize : ℕ} {mem : ℕ → ℕ} {c : Cursor} :
    PageInitReturns memSize mem c ↔
      ∃ d, Halts padTurn (fill pgOffset (memSize >>> 12 >>> (10 + 1)) 0x01001003
          ⟨PAGE_TABLE_ADDR, mem, []⟩) d ∧
        Halts padTurn (fill pgOffset (memSize >>> 12) 3 d) c := by
  have hentry : pgOffset ||| PAGE_PRESENT ||| PAGE_READ_WRITE |||
      PAGE_TABLE_ADDR = 0x01001003 := by decide
  have hflags : PAGE_PRESENT ||| PAGE_READ_WRITE = 3 := by decide
  simp only [PageInitReturns, pageInit, hentry, hflags, Option.bind_eq_bind,
    Option.bind_eq_some_iff]
  constructor
  · rintro ⟨fuel, d, hfirst, hsecond⟩
    exact ⟨d, ⟨fuel, hfirst⟩, ⟨fuel, hsecond⟩⟩
  · rintro ⟨d, ⟨fuel, hfirst⟩, ⟨fuel', hsecond⟩⟩
    exact ⟨max fuel fuel', d, runFuel_mono hfirst (le_max_left _ _),
      runFuel_mono hsecond (le_max_right _ _)⟩

theorem pageInitReturns_unique {memSize : ℕ} {mem : ℕ → ℕ} {c c' : Cursor}
    (hfirst : PageInitReturns memSize mem c)
    (hsecond : PageInitReturns memSize mem c') : c = c' := by
  rw [pageInitReturns_iff] at hfirst hsecond
  obtain ⟨d, hd, hc⟩ := hfirst
  obtain ⟨d', hd', hc'⟩ := hsecond
  obtain rfl := hd.unique hd'
  exact hc.unique hc'

/-! ## What page_init writes -/

/-- The first `n` entries of the page directory. -/
def dirEntries (n : ℕ) (mem : ℕ → ℕ) : Cursor :=
  fill pgOffset n 0x01001003 ⟨PAGE_TABLE_ADDR, mem, []⟩

def padding (n : ℕ) : ℕ := if n = 0 then 0 else 1024 - n

def directory (n : ℕ) (mem : ℕ → ℕ) : Cursor :=
  fill 0 (padding n) 0 (dirEntries n mem)

/-- What `page_init` leaves for a memory of `k` times 4 MiB. -/
def pageTables (k : ℕ) (mem : ℕ → ℕ) : Cursor :=
  fill pgOffset (1024 * k) 3 (directory (k / 2) mem)

section Tables

variable {k n : ℕ} (mem : ℕ → ℕ)

theorem padding_cases (hn : n ≤ 128) :
    (n = 0 ∧ padding n = 0) ∨ (0 < n ∧ n + padding n = 1024) := by
  unfold padding
  split_ifs with hzero
  · exact Or.inl ⟨hzero, rfl⟩
  · exact Or.inr ⟨by omega, by omega⟩

theorem dirEntries_kptr (hn : n ≤ 128) :
    (dirEntries n mem).kptr = PAGE_TABLE_ADDR + 4 * n := by
  rw [dirEntries, fill_kptr]
  simp only [PAGE_TABLE_ADDR]
  omega

theorem directory_kptr (hn : n ≤ 128) :
    (directory n mem).kptr = PAGE_TABLE_ADDR + 4 * (n + padding n) := by
  have hcases := padding_cases hn
  rw [directory, fill_kptr, dirEntries_kptr mem hn]
  · omega
  · rw [dirEntries_kptr mem hn, PAGE_TABLE_ADDR]
    omega

theorem pageInit_returns (hk : k ≤ 256) :
    PageInitReturns (k * 2 ^ 22) mem (pageTables k mem) := by
  have hhalf : k / 2 ≤ 128 := by omega
  have hcases := padding_cases hhalf
  have hentries := dirEntries_kptr mem hhalf
  have hdirectory := directory_kptr mem hhalf
  simp only [PAGE_TABLE_ADDR] at hentries hdirectory
  have htables : (pageTables k mem).kptr =
      PAGE_TABLE_ADDR + 4 * (k / 2 + padding (k / 2)) + 4 * (1024 * k) := by
    rw [pageTables, fill_kptr, hdirectory, PAGE_TABLE_ADDR]
    omega
  simp only [PAGE_TABLE_ADDR] at htables
  have hframes : (k * 2 ^ 22) >>> 12 = 1024 * k := by
    rw [Nat.shiftRight_eq_div_pow]
    omega
  have hhalved : (1024 * k) >>> (10 + 1) = k / 2 := by
    rw [Nat.shiftRight_eq_div_pow]
    omega
  rw [pageInitReturns_iff, hframes, hhalved]
  refine ⟨directory (k / 2) mem, ?_, ?_⟩
  · exact pad_halts (c := dirEntries (k / 2) mem)
      (by omega) (by omega) (by omega) (by omega)
  · have hnone := pad_halts (n := 0) (c := pageTables k mem)
      (by omega) (by omega) (by omega) (by omega)
    rwa [fill] at hnone

/-! ## What the processor finds -/

theorem pageTables_mem_of_lt {x : ℕ} (hk : k ≤ 256)
    (hx : x < (directory (k / 2) mem).kptr) :
    (pageTables k mem).mem x = (directory (k / 2) mem).mem x := by
  have hcases := padding_cases (n := k / 2) (by omega)
  have hkptr := directory_kptr mem (n := k / 2) (by omega)
  apply fill_mem_of_not _ (Or.inl hx)
  rw [hkptr, PAGE_TABLE_ADDR]
  omega

theorem pageTables_dir {j : ℕ} (hlow : 2 ≤ k) (hk : k ≤ 256) (hj : j < 1024) :
    (pageTables k mem).mem (PAGE_TABLE_ADDR + 4 * j) =
      if j < k / 2 then 0x01001003 + 4096 * j else 0 := by
  have hhalf : k / 2 ≤ 128 := by omega
  have hcases := padding_cases hhalf
  have hentries := dirEntries_kptr mem hhalf
  have hkptr := directory_kptr mem hhalf
  rw [pageTables_mem_of_lt mem hk (by rw [hkptr]; omega), directory]
  split_ifs with hlt
  · rw [fill_mem_of_not (by rw [hentries, PAGE_TABLE_ADDR]; omega)
      (Or.inl (by rw [hentries]; omega))]
    exact fill_mem hlt (by simp only [PAGE_TABLE_ADDR]; omega)
      (by simp only [pgOffset]; omega)
  · have hplace : PAGE_TABLE_ADDR + 4 * j =
        (dirEntries (k / 2) mem).kptr + 4 * (j - k / 2) := by omega
    rw [hplace, fill_mem (by omega) (by rw [hentries, PAGE_TABLE_ADDR]; omega)
      (by omega)]
    simp

theorem pageTables_entry {i : ℕ} (hk : k ≤ 256) (hi : i < 1024 * k) :
    (pageTables k mem).mem ((directory (k / 2) mem).kptr + 4 * i) =
      3 + 4096 * i := by
  have hcases := padding_cases (n := k / 2) (by omega)
  have hkptr := directory_kptr mem (n := k / 2) (by omega)
  exact fill_mem hi (by rw [hkptr, PAGE_TABLE_ADDR]; omega)
    (by simp only [pgOffset]; omega)

theorem mem_pageTables_stored (hk : k ≤ 256) (x : ℕ) :
    x ∈ (pageTables k mem).stored ↔
      ∃ i < k / 2 + padding (k / 2) + 1024 * k, x = PAGE_TABLE_ADDR + 4 * i := by
  have hhalf : k / 2 ≤ 128 := by omega
  have hcases := padding_cases hhalf
  have hentries := dirEntries_kptr mem hhalf
  have hkptr := directory_kptr mem hhalf
  rw [pageTables, mem_fill_stored (by rw [hkptr, PAGE_TABLE_ADDR]; omega),
    directory, mem_fill_stored (by rw [hentries, PAGE_TABLE_ADDR]; omega),
    ← directory, hkptr, hentries, dirEntries,
    mem_fill_stored (by simp only [PAGE_TABLE_ADDR]; omega)]
  simp only [List.not_mem_nil, false_or]
  constructor
  · rintro ((⟨i, hi, rfl⟩ | ⟨i, hi, rfl⟩) | ⟨i, hi, rfl⟩)
    · exact ⟨i, by omega, rfl⟩
    · exact ⟨k / 2 + i, by omega, by omega⟩
    · exact ⟨k / 2 + padding (k / 2) + i, by omega, by omega⟩
  · rintro ⟨i, hi, rfl⟩
    by_cases hfirst : i < k / 2
    · exact Or.inl (Or.inl ⟨i, hfirst, rfl⟩)
    by_cases hsecond : i < k / 2 + padding (k / 2)
    · exact Or.inl (Or.inr ⟨i - k / 2, by omega, by omega⟩)
    · exact Or.inr ⟨i - (k / 2 + padding (k / 2)), by omega, by omega⟩

/-- A memory of at least 8 MiB is mapped up to its half and not beyond. -/
theorem pageWalk_pageTables {a : ℕ} (hlow : 2 ≤ k) (hk : k ≤ 256)
    (ha : a < 2 ^ 32) :
    pageWalk (pageTables k mem).mem PAGE_TABLE_ADDR a =
      if a < k / 2 * 2 ^ 22 then some (a, true) else none := by
  have hcases := padding_cases (n := k / 2) (by omega)
  have hkptr := directory_kptr mem (n := k / 2) (by omega)
  have hindex : a / 2 ^ 22 < k / 2 ↔ a < k / 2 * 2 ^ 22 :=
    Nat.div_lt_iff_lt_mul (by decide)
  simp only [pageWalk, pageTables_dir mem hlow hk
    (show a / 2 ^ 22 < 1024 by omega)]
  by_cases hmapped : a / 2 ^ 22 < k / 2
  · -- the table that the directory leads to holds the entry of the frame
    have hentry := pageTables_entry mem hk (i := a / 2 ^ 12) (by omega)
    have hplace : pageOf (0x01001003 + 4096 * (a / 2 ^ 22)) +
        4 * (a / 2 ^ 12 % 1024) =
          (directory (k / 2) mem).kptr + 4 * (a / 2 ^ 12) := by
      rw [hkptr, pageOf, PAGE_TABLE_ADDR]
      omega
    have hodd : ∀ m, present (3 + 4096 * m) ∧ writable (3 + 4096 * m) := by
      intro m
      simp only [present, writable, Nat.testBit, Nat.shiftRight_eq_div_pow,
        Nat.one_and_eq_mod_two, bne_iff_ne]
      omega
    have hdir : 0x01001003 + 4096 * (a / 2 ^ 22) =
        3 + 4096 * (4097 + a / 2 ^ 22) := by omega
    rw [if_pos hmapped, if_pos (hindex.mp hmapped), hplace, hentry, hdir]
    simp only [hodd, if_true, Bool.and_self, Option.some.injEq, Prod.mk.injEq,
      and_true, pageOf]
    omega
  · rw [if_neg hmapped, if_neg fun h => hmapped (hindex.mpr h)]
    rfl

/-- A memory of 4 MiB gets no directory entry: the page table lies where the
directory is read, and its first entry leads to the page at address 0. -/
theorem pageTables_single :
    (pageTables 1 mem).mem PAGE_TABLE_ADDR = 3 ∧
      0 ∉ (pageTables 1 mem).stored := by
  constructor
  · have hentry := pageTables_entry mem (k := 1) (i := 0) (by omega) (by omega)
    rw [directory_kptr mem (by omega)] at hentry
    simpa [padding] using hentry
  · rw [mem_pageTables_stored mem (by omega)]
    rintro ⟨i, _, hi⟩
    simp only [PAGE_TABLE_ADDR] at hi
    omega

theorem not_mapsMemory (hpos : 0 < k) (hk : k ≤ 256) :
    ¬ MapsMemory (k * 2 ^ 22) (pageTables k mem) := by
  rintro ⟨hidentity, htables⟩
  rcases Nat.lt_or_ge 1 k with hlow | hone
  · have hwalk := hidentity (k / 2 * 2 ^ 22) (by omega)
    rw [pageWalk_pageTables mem hlow hk (by omega), if_neg (lt_irrefl _)] at hwalk
    cases hwalk
  · obtain rfl : k = 1 := by omega
    obtain ⟨hentry, hout⟩ := pageTables_single mem
    apply hout
    have htable := htables 0 (by omega)
    rw [Nat.mul_zero, Nat.add_zero, hentry] at htable
    exact htable rfl 0 (by omega)

end Tables

/-- `page_init` returns, and for no size of memory do its tables map it. -/
theorem pageInit_never_maps {memSize : ℕ} (hpos : 0 < memSize)
    (hmul : 2 ^ 22 ∣ memSize) (hle : memSize ≤ 2 ^ 30) (mem : ℕ → ℕ) :
    (∃ c, PageInitReturns memSize mem c) ∧
      ∀ c, PageInitReturns memSize mem c → ¬ MapsMemory memSize c := by
  obtain ⟨k, rfl⟩ := hmul
  rw [Nat.mul_comm] at hpos hle ⊢
  have hreturns := pageInit_returns mem (k := k) (by omega)
  refine ⟨⟨_, hreturns⟩, fun c hc => ?_⟩
  rw [pageInitReturns_unique hc hreturns]
  exact not_mapsMemory mem (by omega) (by omega)

theorem pageInit_never_maps_shipped :
    (∃ c, PageInitReturns 134217728 (fun _ => 0) c) ∧
      ∀ c, PageInitReturns 134217728 (fun _ => 0) c →
        ¬ MapsMemory 134217728 c :=
  pageInit_never_maps (by decide) (by decide) (by decide) _

/-- With the size of `MEM_SIZE` the address 64 MiB is not mapped. -/
theorem upper_half_unmapped :
    ¬ ∀ (memSize : ℕ) (mem : ℕ → ℕ), 0 < memSize → 2 ^ 22 ∣ memSize →
      memSize ≤ 2 ^ 30 → ∃ c, PageInitReturns memSize mem c ∧
        MapsMemory memSize c := by
  intro hclaim
  obtain ⟨c, hc, hmaps⟩ :=
    hclaim 134217728 (fun _ => 0) (by decide) (by decide) (by decide)
  have hreturns := pageInit_returns (fun _ => 0) (k := 32) (by decide)
  rw [pageInitReturns_unique hc hreturns] at hmaps
  have hwalk := hmaps.identity 0x4000000 (by decide)
  rw [pageWalk_pageTables _ (by decide) (by decide) (by decide)] at hwalk
  exact absurd hwalk (by decide)

end Paging
end Janus86
