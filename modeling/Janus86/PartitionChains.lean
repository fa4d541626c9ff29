import Janus86.PartitionScan

/-!
# The records of one chain

`get_boot_sector` appends a record for each boot sector of a chain.  The address
in it counts from the boot sector, and the address of the next boot sector from
the extended partition, which is the same through the whole chain.  The boot
sectors and the nodes of the list come from one `kmalloc`, in turn.
-/

namespace Janus86
namespace Partition

variable {disk : Disk} {drive extlba : ℕ}

/-- The boot sectors that are linked from an address on, with their addresses: they
are readable and signed, and the last one has no link. -/
inductive BootChain (disk : Disk) (drive extlba : ℕ) :
    ℕ → List (ℕ × BootSector) → Prop
  | last {lba : ℕ} {bs : BootSector} (hread : bootAt disk drive lba = some bs)
      (hsigned : bs.signature = mbrSignature) (hlink : (bs.part 1).type = 0) :
      BootChain disk drive extlba lba [(lba, bs)]
  | link {lba : ℕ} {bs : BootSector} {chain : List (ℕ × BootSector)}
      (hread : bootAt disk drive lba = some bs)
      (hsigned : bs.signature = mbrSignature) (hlink : (bs.part 1).type ≠ 0)
      (hrest : BootChain disk drive extlba (nextBoot bs extlba) chain) :
      BootChain disk drive extlba lba ((lba, bs) :: chain)

/-- The entries of a chain: the first slots, which count from their boot sectors. -/
def chainEntries (chain : List (ℕ × BootSector)) : List (Slot × ℕ) :=
  chain.map fun e => (e.2.part 0, e.1)

/-- With so many blocks used, the last of which is the node behind the list. -/
structure Consumes (s s' : PartState) (n : ℕ) : Prop where
  fresh : ∀ k, s'.fresh k = s.fresh (k + n)
  partTemp : 0 < n → s'.partTemp = s.fresh (n - 1)

theorem Consumes.trans {s s' s'' : PartState} {n n' : ℕ} (h : Consumes s s' n)
    (h' : Consumes s' s'' n') (hpos : 0 < n') : Consumes s s'' (n + n') := by
  refine ⟨fun k => ?_, fun _ => ?_⟩
  · rw [h'.fresh, h.fresh, Nat.add_assoc, Nat.add_comm n' n]
  · rw [h'.partTemp hpos, h.fresh]
    congr 1
    omega

/-- A signed boot sector. -/
theorem visitBoot_signed {lba : ℕ} {bs : BootSector}
    (hread : bootAt disk drive lba = some bs) (hsigned : bs.signature = mbrSignature)
    (s : PartState) :
    Appends s (visitBoot disk drive s lba) [(bs.part 0, lba)] [(drive, ataLba lba)] ∧
      Consumes s (visitBoot disk drive s lba) 2 := by
  have hsize : (bs.part 0).numSec < 2 ^ 32 := numSec_lt hread 0
  have hsave := appends_savePartProps lba
    { s.dropBlock with
      temp := bs
      booted := s.booted ++ [(drive, ataLba lba)] } hsize
  unfold visitBoot
  rw [hread]
  dsimp only
  rw [if_pos hsigned]
  exact ⟨⟨hsave.records, hsave.partIn, hsave.saved, rfl⟩, fun _ => rfl, fun _ => rfl⟩

theorem bootStops_iff_of_signed {lba : ℕ} {bs : BootSector}
    (hread : bootAt disk drive lba = some bs) (hsigned : bs.signature = mbrSignature) :
    BootStops disk drive lba ↔ (bs.part 1).type = 0 := by
  unfold BootStops
  rw [hread]
  constructor
  · exact fun hstops => hstops bs rfl hsigned
  · rintro hlast _ hbs _
    rw [← Option.some.inj hbs]
    exact hlast

/-- The call comes back as soon as it has one level for each boot sector. -/
theorem BootChain.run {lba : ℕ} {chain : List (ℕ × BootSector)}
    (hchain : BootChain disk drive extlba lba chain) (s : PartState) {fuel : ℕ}
    (hfuel : chain.length ≤ fuel) :
    ∃ s', getBootSector disk drive extlba fuel lba s = .ok s' ∧
      Appends s s' (chainEntries chain) (sectorsOf drive (chain.map Prod.fst)) ∧
      Consumes s s' (2 * chain.length) := by
  induction hchain generalizing s fuel with
  | @last lba bs hread hsigned hlink =>
      obtain ⟨fuel, rfl⟩ : ∃ n, fuel = n + 1 := Nat.exists_eq_add_of_le' hfuel
      obtain ⟨happends, hconsumes⟩ := visitBoot_signed hread hsigned s
      exact ⟨_, getBootSector_of_stops s
        ((bootStops_iff_of_signed hread hsigned).mpr hlink), happends, hconsumes⟩
  | @link lba bs chain hread hsigned hlink hrest ih =>
      rw [List.length_cons] at hfuel
      obtain ⟨fuel, rfl⟩ : ∃ n, fuel = n + 1 := ⟨fuel - 1, by omega⟩
      obtain ⟨happends, hconsumes⟩ := visitBoot_signed hread hsigned s
      obtain ⟨s', hrun, happends', hconsumes'⟩ :=
        ih (visitBoot disk drive s lba) (Nat.le_of_succ_le_succ hfuel)
      have hpass : ¬ BootStops disk drive lba := fun hstops =>
        hlink ((bootStops_iff_of_signed hread hsigned).mp hstops)
      have hnext : linkOf disk drive extlba lba = nextBoot bs extlba := by
        rw [linkOf, hread]
      have hpos : 0 < 2 * chain.length := by
        cases hrest <;> simp
      refine ⟨s', ?_, happends.trans happends', ?_⟩
      · rw [getBootSector_of_link s hpass, hnext]
        exact hrun
      · have hboth := hconsumes.trans hconsumes' hpos
        rwa [List.length_cons, show 2 * (chain.length + 1) = 2 + 2 * chain.length by omega]

theorem getElem?_recordsFrom (n : ℕ) (entries : List (Slot × ℕ)) (j : ℕ) :
    (recordsFrom n entries)[j]? = entries[j]?.map fun e =>
      ((n + j) % 2 ^ 32, (e.2 + e.1.startLba) % 2 ^ 32, e.1.numSec / 2048) := by
  induction entries generalizing n j with
  | nil => rfl
  | cons e entries ih =>
      cases j with
      | zero => rfl
      | succ j =>
          rw [recordsFrom, List.getElem?_cons_succ, List.getElem?_cons_succ, ih,
            Nat.add_assoc, Nat.add_comm 1 j]

theorem length_recordsFrom (n : ℕ) (entries : List (Slot × ℕ)) :
    (recordsFrom n entries).length = entries.length := by
  induction entries generalizing n with
  | nil => rfl
  | cons e entries ih => rw [recordsFrom, List.length_cons, List.length_cons, ih]

/-- A chain of any length gives one record for each boot sector, in the order of the
chain, behind the records before; the last block is the node behind them. -/
theorem getBootSector_chain {lba : ℕ} {chain : List (ℕ × BootSector)}
    (hchain : BootChain disk drive extlba lba chain) (s : PartState) {fuel : ℕ}
    (hfuel : chain.length ≤ fuel) :
    ∃ s' news, getBootSector disk drive extlba fuel lba s = .ok s' ∧
      s'.records = s.records ++ news ∧ news.length = chain.length ∧
      (∀ j node sector bs, news[j]? = some node → chain[j]? = some (sector, bs) →
        le32 node nameOffset = (s.partIn + j) % 2 ^ 32 ∧
          le32 node stLbaOffset = (sector + (bs.part 0).startLba) % 2 ^ 32 ∧
          le32 node partSizeOffset = (bs.part 0).numSec / 2048) ∧
      s'.partIn = s.partIn + chain.length ∧
      s'.partTemp = s.fresh (2 * chain.length - 1) := by
  obtain ⟨s', hrun, happends, hconsumes⟩ := hchain.run s hfuel
  obtain ⟨news, hnews, hvalues⟩ := happends.records
  have hcount := happends.partIn
  have hpos : 0 < chain.length := by
    cases hchain <;> simp
  refine ⟨s', news, hrun, hnews, ?_, ?_, ?_, hconsumes.partTemp (by omega)⟩
  · rw [← List.length_map (f := describe), hvalues, length_recordsFrom, chainEntries,
      List.length_map]
  · intro j node sector bs hnode hat
    have hvalue := congrArg (·[j]?) hvalues
    simp only [List.getElem?_map, getElem?_recordsFrom, chainEntries, hnode, hat,
      Option.map_some, Option.some.injEq] at hvalue
    exact ⟨congrArg Prod.fst hvalue, congrArg (·.2.1) hvalue, congrArg (·.2.2) hvalue⟩
  · rw [hcount, chainEntries, List.length_map]

/-- A chain of two, in the extended partition at sector 10: the second boot sector
is at sector 15. -/
def twoLinked (n : ℕ) : List (ℕ × ℕ × ℕ) :=
  if n = 10 then [(5, 1, 4096), (5, 5, 0)] else [(0x0B, 2, 2048), (0, 0, 0)]

theorem twoLinked_chain :
    BootChain (tableDisk twoLinked) 0 10 10
      [(10, tableSector twoLinked 10), (15, tableSector twoLinked 15)] := by
  have hnext : nextBoot (tableSector twoLinked 10) 10 = 15 := by decide +kernel
  refine .link (bootAt_tableDisk twoLinked (by norm_num)) (by decide +kernel)
    (by decide +kernel) ?_
  rw [hnext]
  exact .last (bootAt_tableDisk twoLinked (by norm_num)) (by decide +kernel)
    (by decide +kernel)

theorem getBootSector_chain_two :
    ∃ s' news, getBootSector (tableDisk twoLinked) 0 10 2 10 (heapOf 0) = .ok s' ∧
      s'.records = (heapOf 0).records ++ news ∧ news.length = 2 ∧
      (∀ j node sector bs, news[j]? = some node →
        [(10, tableSector twoLinked 10), (15, tableSector twoLinked 15)][j]? =
          some (sector, bs) →
        le32 node nameOffset = ((heapOf 0).partIn + j) % 2 ^ 32 ∧
          le32 node stLbaOffset = (sector + (bs.part 0).startLba) % 2 ^ 32 ∧
          le32 node partSizeOffset = (bs.part 0).numSec / 2048) ∧
      s'.partIn = (heapOf 0).partIn + 2 ∧ s'.partTemp = (heapOf 0).fresh 3 :=
  getBootSector_chain twoLinked_chain (heapOf 0) (Nat.le_refl 2)

end Partition
end Janus86
