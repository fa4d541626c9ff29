import Mathlib.Tactic

/-!
# Stores of whole chunks

A copy loop that works in units of `unit` bytes stores its chunks one behind
the other.  `chunkStores` lists the single stores, `applyStores` is the
memory after them: a byte of the stored range is the byte of its chunk, and
everything else is untouched.
-/

namespace Janus86
namespace ChunkStores

/-- A store: the address and the byte. -/
abbrev Store := ℕ × UInt8

/-- The stores of chunks of `unit` bytes from the address `loc` on. -/
def chunkStores (unit : ℕ) : ℕ → List (ℕ → UInt8) → List Store
  | _, [] => []
  | loc, chunk :: chunks =>
      (List.range unit).map (fun o => (loc + o, chunk o)) ++
        chunkStores unit (loc + unit) chunks

/-- The memory after a list of stores. -/
def applyStores (mem : ℕ → UInt8) (stores : List Store) : ℕ → UInt8 :=
  stores.foldl (fun mem s => Function.update mem s.1 s.2) mem

/-- The stores of a machine whose addresses have 32 bits. -/
def wrapped (stores : List Store) : List Store :=
  stores.map fun s => (s.1 % 2 ^ 32, s.2)

variable {unit : ℕ}

theorem exists_mem_chunkStores_iff (unit loc a : ℕ)
    (chunks : List (ℕ → UInt8)) :
    (∃ b, (a, b) ∈ chunkStores unit loc chunks) ↔
      loc ≤ a ∧ a < loc + unit * chunks.length := by
  induction chunks generalizing loc with
  | nil => simp [chunkStores]
  | cons chunk chunks ih =>
      have hlen : loc + unit * (chunks.length + 1) =
          loc + unit + unit * chunks.length := by ring
      simp only [chunkStores, List.mem_append, exists_or, ih, List.mem_map,
        List.mem_range, Prod.mk.injEq, List.length_cons, hlen]
      constructor
      · rintro (⟨b, o, ho, rfl, rfl⟩ | h)
        · omega
        · omega
      · intro h
        by_cases ha : a < loc + unit
        · exact Or.inl ⟨_, a - loc, by omega, by omega, rfl⟩
        · exact Or.inr (by omega)

theorem forall_chunkStores_lt_iff (loc size : ℕ) (chunks : List (ℕ → UInt8)) :
    (∀ s ∈ chunkStores unit loc chunks, loc ≤ s.1 ∧ s.1 < loc + size) ↔
      unit * chunks.length ≤ size := by
  constructor
  · intro hall
    by_contra hgt
    have hpos : 0 < unit * chunks.length := by omega
    obtain ⟨b, hb⟩ := (exists_mem_chunkStores_iff unit loc
      (loc + size) chunks).mpr (by omega)
    have h := hall _ hb
    simp only at h
    omega
  · intro hle s hs
    have h := (exists_mem_chunkStores_iff unit loc s.1 chunks).mp
      ⟨s.2, hs⟩
    omega

theorem applyStores_of_not_mem (mem : ℕ → UInt8) (a : ℕ)
    (stores : List Store) (ha : ∀ s ∈ stores, s.1 ≠ a) :
    applyStores mem stores a = mem a := by
  induction stores generalizing mem with
  | nil => rfl
  | cons s stores ih =>
      have hs : a ≠ s.1 := (ha s (by simp)).symm
      change applyStores (Function.update mem s.1 s.2) stores a = mem a
      rw [ih _ fun s' hs' => ha s' (by simp [hs'])]
      simp [hs]

theorem applyStores_append (mem : ℕ → UInt8) (stores more : List Store) :
    applyStores mem (stores ++ more) =
      applyStores (applyStores mem stores) more := by
  simp [applyStores]

theorem applyStores_range (mem : ℕ → UInt8) (loc o n : ℕ)
    (chunk : ℕ → UInt8) (ho : o < n) :
    applyStores mem ((List.range n).map fun o => (loc + o, chunk o))
      (loc + o) = chunk o := by
  induction n with
  | zero => omega
  | succ n ih =>
      rw [List.range_succ, List.map_append, applyStores_append]
      by_cases heq : o = n
      · subst heq
        simp [applyStores]
      · rw [applyStores_of_not_mem]
        · exact ih (by omega)
        · intro s hs
          simp only [List.map_cons, List.map_nil, List.mem_singleton] at hs
          subst hs
          simp only
          omega

/-- A byte of the stored range is the byte of its chunk. -/
theorem applyStores_chunk (mem : ℕ → UInt8) (loc p : ℕ)
    (chunks : List (ℕ → UInt8)) {chunk : ℕ → UInt8}
    (hchunk : chunks[p / unit]? = some chunk) (hunit : 0 < unit) :
    applyStores mem (chunkStores unit loc chunks) (loc + p) =
      chunk (p % unit) := by
  induction chunks generalizing mem loc p with
  | nil => simp at hchunk
  | cons first chunks ih =>
      rw [chunkStores, applyStores_append]
      by_cases hp : p < unit
      · rw [Nat.div_eq_of_lt hp, List.getElem?_cons_zero,
          Option.some.injEq] at hchunk
        subst hchunk
        rw [applyStores_of_not_mem, Nat.mod_eq_of_lt hp]
        · exact applyStores_range mem loc p unit first hp
        · intro s hs heq
          have h := (exists_mem_chunkStores_iff unit (loc + unit)
            s.1 chunks).mp ⟨s.2, hs⟩
          omega
      · have hsplit : p = unit + (p - unit) := by omega
        have hdiv : p / unit = (p - unit) / unit + 1 := by
          conv_lhs => rw [hsplit]
          rw [Nat.add_div_left _ hunit]
        have hmod : p % unit = (p - unit) % unit := by
          conv_lhs => rw [hsplit]
          simp
        rw [hdiv, List.getElem?_cons_succ] at hchunk
        have h := ih (applyStores mem
          ((List.range unit).map fun o => (loc + o, first o)))
          (loc + unit) (p - unit) hchunk
        rw [hmod, ← h]
        congr 1
        omega

/-- What a byte is, whatever was there before, is the byte of a chunk. -/
theorem exists_chunk_of_stored {loc p : ℕ} {chunks : List (ℕ → UInt8)} {b : UInt8}
    (hunit : 0 < unit) (hstored : ∀ old,
      applyStores (fun _ => old) (chunkStores unit loc chunks) (loc + p) = b) :
    ∃ chunk, chunks[p / unit]? = some chunk ∧ chunk (p % unit) = b := by
  cases hchunk : chunks[p / unit]? with
  | some chunk =>
      refine ⟨chunk, rfl, ?_⟩
      rw [← hstored 0, applyStores_chunk _ _ _ _ hchunk hunit]
  | none =>
      have hlen : chunks.length ≤ p / unit := List.getElem?_eq_none_iff.mp hchunk
      have hpast : unit * chunks.length ≤ p :=
        (Nat.mul_le_mul_left unit hlen).trans (Nat.mul_div_le p unit)
      have hbyte := hstored (b + 1)
      rw [applyStores_of_not_mem] at hbyte
      · simp at hbyte
      · intro s hs heq
        have h := (exists_mem_chunkStores_iff unit loc s.1 chunks).mp ⟨s.2, hs⟩
        omega

/-- A range holds given bytes, whatever was there before, exactly when they
are the bytes of the chunks. -/
theorem applyStores_eq_iff {loc size : ℕ} {chunks : List (ℕ → UInt8)}
    {byte : ℕ → UInt8} (hunit : 0 < unit) :
    (∀ mem, ∀ p < size,
        applyStores mem (chunkStores unit loc chunks) (loc + p) = byte p) ↔
      ∀ p < size, ∃ chunk, chunks[p / unit]? = some chunk ∧
        chunk (p % unit) = byte p := by
  constructor
  · exact fun hall p hp => exists_chunk_of_stored hunit fun old => hall _ p hp
  · intro hall mem p hp
    obtain ⟨chunk, hchunk, hbyte⟩ := hall p hp
    rw [applyStores_chunk _ _ _ _ hchunk hunit, hbyte]

/-! ## Addresses of 32 bits -/

/-- In a range of at most `2 ^ 32` bytes no two addresses wrap to the same one. -/
theorem applyStores_wrapped {loc n : ℕ} (hn : n ≤ 2 ^ 32) {stores : List Store}
    (hinside : ∀ s ∈ stores, loc ≤ s.1 ∧ s.1 < loc + n) (mem : ℕ → UInt8) {p : ℕ}
    (hp : p < n) :
    applyStores mem (wrapped stores) ((loc + p) % 2 ^ 32) =
      applyStores (fun a => mem (a % 2 ^ 32)) stores (loc + p) := by
  induction stores using List.reverseRecOn with
  | nil => rfl
  | append_singleton stores s ih =>
      have hbefore := ih fun s hs => hinside s (List.mem_append_left _ hs)
      have hs := hinside s (List.mem_append_right _ (List.mem_singleton_self s))
      rw [wrapped, List.map_append, applyStores_append, applyStores_append]
      change Function.update (applyStores mem (wrapped stores)) (s.1 % 2 ^ 32) s.2
          ((loc + p) % 2 ^ 32) =
        Function.update (applyStores (fun a => mem (a % 2 ^ 32)) stores) s.1 s.2 (loc + p)
      by_cases hsame : loc + p = s.1
      · rw [hsame, Function.update_self, Function.update_self]
      · have hapart : (loc + p) % 2 ^ 32 ≠ s.1 % 2 ^ 32 := by omega
        rw [Function.update_of_ne hapart, Function.update_of_ne hsame, hbefore]

/-- Chunks that leave one address alone have fewer than `2 ^ 32` bytes. -/
theorem length_lt_of_avoids {loc : ℕ} {chunks : List (ℕ → UInt8)} {used : Set ℕ}
    (hused : ∃ a ∈ used, a < 2 ^ 32)
    (havoids : ∀ s ∈ chunkStores unit loc chunks, s.1 % 2 ^ 32 ∉ used) :
    unit * chunks.length < 2 ^ 32 := by
  obtain ⟨a, ha, hlt⟩ := hused
  by_contra hlong
  -- The first address from `loc` on that wraps to `a`.
  have hwraps : (loc + (a + 2 ^ 32 - loc % 2 ^ 32) % 2 ^ 32) % 2 ^ 32 = a := by omega
  obtain ⟨b, hb⟩ := (exists_mem_chunkStores_iff unit loc
    (loc + (a + 2 ^ 32 - loc % 2 ^ 32) % 2 ^ 32) chunks).mpr (by omega)
  have hclear := havoids _ hb
  rw [hwraps] at hclear
  exact hclear ha

/-- The same of wrapped stores. -/
theorem applyStores_wrapped_eq_iff {loc size : ℕ} {chunks : List (ℕ → UInt8)}
    {byte : ℕ → UInt8} (hunit : 0 < unit) (hsize : size ≤ 2 ^ 32)
    (hfit : unit * chunks.length ≤ 2 ^ 32) :
    (∀ mem, ∀ p < size, applyStores mem (wrapped (chunkStores unit loc chunks))
        ((loc + p) % 2 ^ 32) = byte p) ↔
      ∀ p < size, ∃ chunk, chunks[p / unit]? = some chunk ∧
        chunk (p % unit) = byte p := by
  have hunwrap : ∀ mem, ∀ p < size,
      applyStores mem (wrapped (chunkStores unit loc chunks)) ((loc + p) % 2 ^ 32) =
        applyStores (fun a => mem (a % 2 ^ 32)) (chunkStores unit loc chunks)
          (loc + p) := by
    intro mem p hp
    refine applyStores_wrapped le_rfl (fun s hs => ?_) mem (by omega)
    have hin := (exists_mem_chunkStores_iff unit loc s.1 chunks).mp ⟨s.2, hs⟩
    omega
  constructor
  · intro hall p hp
    have hone : ∀ old, applyStores (fun _ => old) (chunkStores unit loc chunks)
        (loc + p) = byte p := by
      intro old
      rw [← hall (fun _ => old) p hp, hunwrap _ p hp]
    exact exists_chunk_of_stored hunit hone
  · intro hall mem p hp
    obtain ⟨chunk, hchunk, hbyte⟩ := hall p hp
    rw [hunwrap mem p hp, applyStores_chunk _ _ _ _ hchunk hunit, hbyte]

end ChunkStores
end Janus86
