import Janus86.Fat32Geometry
import Janus86.Fat32Termination

/-!
# What an entry of the FAT says

The low 28 bits of an entry name the next cluster or, from 0x0FFFFFF8 on, the end
of the chain.  `fat32_rd_FAT` hands the raw entry to its callers, as an `int` in
which 0 ends the chain and a range of negative numbers reports errors; only the
one marker 0x0FFFFFFF is turned into 0.
-/

namespace Janus86
namespace Fat32

inductive Link where
  | ended
  | next (cluster : ℕ)
  deriving DecidableEq

/-- The link that the low 28 bits of an entry are. -/
def linkOf (e : ℕ) : Link := if 0x0FFFFFF8 ≤ e then .ended else .next e

def Link.cluster : Link → Option ℕ
  | .ended => none
  | .next c => some c

/-- What the callers of `fat32_rd_FAT` take its value for; `none` for an error. -/
def takenFor (value : ℕ) : Option Link :=
  if isError value then none
  else if value = 0 then some .ended
  else some (.next value)

/-- The entry is taken for the link, and the listing and the load go on with
that cluster, or with none. -/
structure Follows (vol : Volume) (g : Globals) (cluster : ℕ) (link : Link) :
    Prop where
  returned : takenFor (fat32RdFAT vol g cluster) = some link
  listed : ∀ direntry c s fuel, clusterLoop vol g direntry cluster c = .ok s →
    (rdClusterVisits vol g direntry (fuel + 2) cluster c)[1]? = link.cluster
  loaded : ∀ size fuel, (mmapCopy vol g cluster (mmapSectors size) 0).2 = true →
    (mmapVisits vol g (fuel + 2) cluster size)[1]? = link.cluster

/-- The value is taken for an error, and no cluster is gone on with. -/
structure Fails (vol : Volume) (g : Globals) (cluster : ℕ) : Prop where
  returned : takenFor (fat32RdFAT vol g cluster) = none
  listed : ∀ direntry c fuel,
    (rdClusterVisits vol g direntry (fuel + 2) cluster c)[1]? = none
  loaded : ∀ size fuel, (mmapVisits vol g (fuel + 2) cluster size)[1]? = none

def entryReadable (vol : Volume) (g : Globals) (cluster : ℕ) : Bool :=
  vol.disk.readable vol.drive (ataLba (fatSector g cluster))

/-- An entry that can be read is followed as it says, and one that cannot is an
error. -/
def FollowsChain (vol : Volume) (g : Globals) (cluster : ℕ) : Prop :=
  if entryReadable vol g cluster then
    Follows vol g cluster (linkOf (fatLink vol g cluster))
  else Fails vol g cluster

/-- The marker, or a link with no reserved bit set, to a cluster other than 0. -/
def PlainEntry (entry : ℕ) : Prop :=
  entry = fatEofMarker ∨ 0 < entry ∧ entry < 0x0FFFFFF8

variable {vol : Volume} {g : Globals} {cluster : ℕ}

/-! ## The callers -/

theorem rdClusterVisits_second {direntry : Buffer} {c : ListCursor}
    {s : ClusterState} (hloop : clusterLoop vol g direntry cluster c = .ok s)
    (fuel : ℕ) :
    (rdClusterVisits vol g direntry (fuel + 2) cluster c)[1]? =
      (takenFor (fat32RdFAT vol g cluster)).bind Link.cluster := by
  rw [rdClusterVisits, hloop]
  simp only
  unfold takenFor
  by_cases herror : isError (fat32RdFAT vol g cluster) = true
  · rw [if_pos (Or.inl herror), if_pos herror]
    rfl
  by_cases hzero : fat32RdFAT vol g cluster = 0
  · rw [if_pos (Or.inr hzero), if_neg herror, if_pos hzero]
    rfl
  rw [if_neg (not_or.mpr ⟨herror, hzero⟩), if_neg herror, if_neg hzero]
  rw [rdClusterVisits]
  cases clusterLoop vol g direntry (fat32RdFAT vol g cluster) s.list with
  | error stop => rfl
  | ok s' =>
      simp only
      split
      · rfl
      · rfl

theorem mmapVisits_second {size : ℤ}
    (hcopy : (mmapCopy vol g cluster (mmapSectors size) 0).2 = true) (fuel : ℕ) :
    (mmapVisits vol g (fuel + 2) cluster size)[1]? =
      (takenFor (fat32RdFAT vol g cluster)).bind Link.cluster := by
  rw [mmapVisits, hcopy]
  simp only [Bool.true_eq_false, false_or]
  unfold takenFor
  by_cases herror : isError (fat32RdFAT vol g cluster) = true
  · rw [if_pos (Or.inl herror), if_pos herror]
    rfl
  by_cases hzero : fat32RdFAT vol g cluster = 0
  · rw [if_pos (Or.inr hzero), if_neg herror, if_pos hzero]
    rfl
  rw [if_neg (not_or.mpr ⟨herror, hzero⟩), if_neg herror, if_neg hzero]
  rw [mmapVisits]
  split
  · rfl
  · rfl

/-- The callers do what the value is taken for. -/
theorem follows_iff (link : Link) :
    Follows vol g cluster link ↔
      takenFor (fat32RdFAT vol g cluster) = some link := by
  constructor
  · exact Follows.returned
  · intro htaken
    refine ⟨htaken, fun direntry c s fuel hloop => ?_, fun size fuel hcopy => ?_⟩
    · rw [rdClusterVisits_second hloop, htaken]
      rfl
    · rw [mmapVisits_second hcopy, htaken]
      rfl

theorem fails_of_taken (htaken : takenFor (fat32RdFAT vol g cluster) = none) :
    Fails vol g cluster := by
  refine ⟨htaken, fun direntry c fuel => ?_, fun size fuel => ?_⟩
  · cases hloop : clusterLoop vol g direntry cluster c with
    | ok s =>
        rw [rdClusterVisits_second hloop, htaken]
        rfl
    | error stop =>
        rw [rdClusterVisits, hloop]
        rfl
  · cases hcopy : (mmapCopy vol g cluster (mmapSectors size) 0).2 with
    | true =>
        rw [mmapVisits_second hcopy, htaken]
        rfl
    | false =>
        rw [mmapVisits, if_pos (Or.inl hcopy)]
        rfl

/-! ## The entries -/

theorem fatEntry_lt (vol : Volume) (g : Globals) (cluster : ℕ) :
    fatEntry vol g cluster < 2 ^ 32 :=
  le32_lt _ _

theorem takenFor_entry_iff {entry : ℕ} (hlt : entry < 2 ^ 32) :
    takenFor (if entry = fatEofMarker then 0 else entry) =
        some (linkOf (entry % 2 ^ 28)) ↔ PlainEntry entry := by
  unfold PlainEntry takenFor linkOf
  by_cases hmarker : entry = fatEofMarker
  · rw [if_pos hmarker, hmarker]
    decide
  rw [if_neg hmarker]
  have herror : isError entry = true ↔ 0xFFFFFFF1 ≤ entry ∧ entry ≤ 0xFFFFFFFB := by
    simp only [isError, noSuchPart, filNotFound, Bool.and_eq_true]
    norm_num
  simp only [fatEofMarker] at hmarker ⊢
  by_cases hcode : isError entry = true
  · -- the entry is cut down to an end of the chain, or to the cluster -15 to -9
    rw [if_pos hcode]
    rw [herror] at hcode
    simp only [reduceCtorEq, false_iff]
    omega
  rw [if_neg hcode]
  by_cases hzero : entry = 0
  · rw [if_pos hzero, hzero]
    decide
  rw [if_neg hzero]
  split
  · simp only [Option.some.injEq, reduceCtorEq, false_iff]
    omega
  · simp only [Option.some.injEq, Link.next.injEq]
    omega

/-- The FAT is followed at a cluster exactly when its entry, if it can be read, is
the marker 0x0FFFFFFF or a number from 1 to 0x0FFFFFF7. -/
theorem followsChain_iff (vol : Volume) (g : Globals) (cluster : ℕ) :
    FollowsChain vol g cluster ↔
      (entryReadable vol g cluster = true → PlainEntry (fatEntry vol g cluster)) := by
  unfold FollowsChain
  cases hread : entryReadable vol g cluster with
  | true =>
      simp only [if_true, forall_const]
      rw [follows_iff, fat32RdFAT_of_readable hread, fatLink,
        takenFor_entry_iff (fatEntry_lt vol g cluster)]
  | false =>
      simp only [Bool.false_eq_true, if_false, false_implies, iff_true]
      have hcode : fat32RdFAT vol g cluster = diskReadErr := by
        rw [fat32RdFAT_fatSector,
          readDiskSector_one_eq_none (fun _ => 0) hread]
      refine fails_of_taken ?_
      rw [hcode]
      decide

/-- The chain of cluster 2 ends with 0x0FFFFFF8. -/
def otherEndVolume : Volume := smallVolume [0, 0, 0x0FFFFFF8] fun _ => []

/-- The end of the chain is taken for the number of a cluster. -/
theorem end_taken_for_cluster : ¬FollowsChain otherEndVolume smallGlobals 2 := by
  intro hfollows
  have hvalue : takenFor (fat32RdFAT otherEndVolume smallGlobals 2) =
      some (.next 0x0FFFFFF8) := by
    decide +kernel
  have hlink : linkOf (fatLink otherEndVolume smallGlobals 2) = .ended := by
    decide +kernel
  have htaken : takenFor (fat32RdFAT otherEndVolume smallGlobals 2) =
      some (linkOf (fatLink otherEndVolume smallGlobals 2)) :=
    Follows.returned hfollows
  rw [hvalue, hlink] at htaken
  cases htaken

end Fat32
end Janus86
