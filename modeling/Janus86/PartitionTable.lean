import Janus86.AtoiNumbers
import Janus86.FsRoot
import Janus86.ScreenSession
import Janus86.ShellBuiltins

/-!
# The numbers of the partition table

`ppart` shows a row for each record, and the first word of a row is the number of the
record.  Typed behind the `p` of `root`, it makes `fs_root` look at that record and no
other: the numbers of the rows run from 1 on, whatever the scan has found.
-/

namespace Janus86
namespace Partition

open StepMachine Video
open Printf (Arg numeral)

/-! ## The table -/

/-- The bytes from the name of the type up to the end of the record. -/
def typeBytes (node : Buffer) : List UInt8 :=
  (List.range 19).map fun j => node (typeOffset + j)

def tableHeader : Call where
  fmt := ascii "Partition      Type          Starting LBA         Patition Size\n " ++ [0]
  args := fun _ => ⟨0, []⟩

def rowArgs (node : Buffer) : ℕ → Arg
  | 0 => ⟨UInt32.ofNat (le32 node nameOffset), []⟩
  | 1 => ⟨0, typeBytes node⟩
  | 2 => ⟨UInt32.ofNat (le32 node stLbaOffset), []⟩
  | 3 => ⟨UInt32.ofNat (le32 node partSizeOffset), []⟩
  | _ => ⟨0, []⟩

def rowFormat : List UInt8 :=
  ascii "   %d     %10s            %-10d          %-6dMb\n " ++ [0]

def tableRow (node : Buffer) : Call := ⟨rowFormat, rowArgs node⟩

/-- The calls of `kprintf` in `cmd_ppart`. -/
def cmdPpart (p : PartState) : List Call := tableHeader :: p.records.map tableRow

/-- The first word of a text. -/
def firstWord (text : List UInt8) : List UInt8 :=
  (text.dropWhile (· == 32)).takeWhile (· != 32)

/-! ## Rows in order -/

/-- The records are numbered from 1 on, and each holds a NUL behind the name of its type. -/
structure Numbered (s : PartState) : Prop where
  partIn : s.partIn = s.records.length + 1
  number : ∀ k node, s.records[k]? = some node → le32 node nameOffset = (k + 1) % 2 ^ 32
  ended : ∀ node ∈ s.records, node 23 = 0

variable {disk : Disk} {s s' : PartState}

theorem Numbered.congr (h : Numbered s) (hpartIn : s'.partIn = s.partIn)
    (hrecords : s'.records = s.records) : Numbered s' := by
  obtain ⟨hin, hnumber, hended⟩ := h
  exact ⟨by rw [hpartIn, hrecords, hin], by rwa [hrecords], by rwa [hrecords]⟩

/-- A partition of less than 2 TiB has less than 2 ^ 24 MiB. -/
theorem ended_fillNode (partIn : ℕ) {pe : Slot} (lba : ℕ) (node : Buffer)
    (hsize : pe.numSec < 2 ^ 32) : fillNode partIn pe lba node 23 = 0 := by
  have hzero : pe.numSec / 2048 / 256 ^ 3 = 0 := by omega
  rw [fillNode, put32, putBytes_of_lt (show partSizeOffset ≤ 23 by decide) (by
    rw [List.length_map, List.length_range]; decide)]
  show UInt8.ofNat (pe.numSec / 2048 / 256 ^ 3) = 0
  rw [hzero]
  rfl

theorem Numbered.savePartProps (h : Numbered s) {pe : Slot} (lba : ℕ)
    (hsize : pe.numSec < 2 ^ 32) : Numbered (savePartProps pe lba s) := by
  obtain ⟨hpartIn, hnumber, hended⟩ := h
  refine ⟨?_, ?_, ?_⟩
  · simp [Partition.savePartProps, hpartIn]
  · intro k node hnode
    rcases Nat.lt_or_ge k s.records.length with hlt | hge
    · rw [Partition.savePartProps, List.getElem?_append_left hlt] at hnode
      exact hnumber k node hnode
    · rw [Partition.savePartProps, List.getElem?_append_right hge] at hnode
      obtain ⟨hk, hlast⟩ := List.getElem?_eq_some_iff.mp hnode
      rw [List.length_singleton] at hk
      obtain rfl : k = s.records.length := by omega
      simp only [Nat.sub_self, List.getElem_cons_zero] at hlast
      rw [← hlast, number_fillNode, hpartIn]
  · intro node hmem
    rcases List.mem_append.mp hmem with hmem | hmem
    · exact hended node hmem
    · rw [List.mem_singleton.mp hmem]
      exact ended_fillNode _ _ _ hsize

theorem numbered_primary (h : Numbered s) (hsize : ∀ i, (s.bslist.part i).numSec < 2 ^ 32) :
    Numbered (traversePrimaryPartitions s) := by
  have hfold : ∀ (is : List ℕ) (s' : PartState), Numbered s' →
      Numbered (is.foldl (fun s' i => savePartProps (s.bslist.part i) 0 s') s') := by
    intro is
    induction is with
    | nil => exact fun _ h => h
    | cons i is ih => exact fun s' h => ih _ (h.savePartProps 0 (hsize i))
  unfold traversePrimaryPartitions
  split
  · exact hfold _ s h
  · exact h

theorem numbered_walks {drive : ℕ} (lbas : List ℕ) (h : Numbered s) :
    Numbered (lbas.foldl (visitBoot disk drive) s) := by
  induction lbas generalizing s with
  | nil => exact h
  | cons lba lbas ih =>
      refine ih ?_
      unfold visitBoot
      cases hread : bootAt disk drive lba with
      | none => exact h.congr rfl rfl
      | some bs =>
          dsimp only
          split
          · refine Numbered.savePartProps ?_ lba (numSec_lt hread 0)
            exact h.congr rfl rfl
          · exact h.congr rfl rfl

theorem numbered_scanDrive {drive fuel : ℕ} (h : Numbered s)
    (hscan : scanDrive disk fuel s drive = .ok s') : Numbered s' := by
  have hmbr : Numbered (readMbr disk drive s) ∧
      ∀ i, ((readMbr disk drive s).bslist.part i).numSec < 2 ^ 32 := by
    unfold readMbr
    split <;> exact ⟨h.congr rfl rfl, fun i => le32_lt _ _⟩
  rw [scanDrive_eq] at hscan
  obtain ⟨walks, _, rfl⟩ := seenWalks_of_scan hscan
  exact numbered_walks _ ((numbered_primary hmbr.1 hmbr.2).congr rfl rfl)

theorem numbered_readDiskPartitions {numIdeDrives fuel : ℕ} {p : PartState}
    (hscan : readDiskPartitions disk numIdeDrives fuel s = .ok p) : Numbered p := by
  have hstart : Numbered (emptyList s) := ⟨rfl, by simp [emptyList], by simp [emptyList]⟩
  exact foldlM_invariant Numbered (fun _ _ _ hnumbered hok => numbered_scanDrive hnumbered hok)
    hstart hscan

/-- The number of a record leads `fs_root` to it. -/
theorem Numbered.partitionNode {p : PartState} (h : Numbered p)
    (hcount : p.records.length < 2 ^ 31) {k : ℕ} {node : Buffer}
    (hnode : p.records[k]? = some node) : Fs.partitionNode p (k + 1 : ℕ) = node := by
  obtain ⟨hk, hget⟩ := List.getElem?_eq_some_iff.mp hnode
  have hvalue : ∀ i node', p.records[i]? = some node' →
      toInt32 (le32 node' nameOffset) = (i + 1 : ℕ) := by
    intro i node' hnode'
    obtain ⟨hi, _⟩ := List.getElem?_eq_some_iff.mp hnode'
    rw [h.number i node' hnode', Nat.mod_eq_of_lt (by omega), toInt32_of_lt (by omega)]
  have hfind : p.records.find? (fun node => toInt32 (le32 node nameOffset) == (k + 1 : ℕ)) =
      some node := by
    rw [List.find?_eq_some_iff_getElem]
    refine ⟨by rw [hvalue k node hnode]; exact beq_self_eq_true _, k, hk, hget,
      fun j hj => ?_⟩
    rw [hvalue j _ (List.getElem?_eq_getElem (hj.trans hk))]
    simp only [Bool.not_eq_true', beq_eq_false_iff_ne, ne_eq, Nat.cast_inj]
    omega
  rw [Fs.partitionNode, hfind]
  rfl

/-! ## The text of a row -/

section Text

open Printf (Directive Piece)
open Shell (literalPieces lengthBound_literals lengthBound_directive)

/-- `%d`, `%10s`, `%-10d` and `%-6d`. -/
def numberDirective : Directive := ⟨false, false, 0, false, false, .signed⟩

def typeDirective : Directive := ⟨false, false, 10, false, false, .string⟩

def startDirective : Directive := ⟨true, false, 10, false, false, .signed⟩

def sizeDirective : Directive := ⟨true, false, 6, false, false, .signed⟩

def rowPieces : List Piece :=
  literalPieces "   " ++ [.directive numberDirective] ++ literalPieces "     " ++
    [.directive typeDirective] ++ literalPieces "            " ++ [.directive startDirective] ++
    literalPieces "          " ++ [.directive sizeDirective] ++ literalPieces "Mb\n "

theorem parse_rowFormat : Printf.parse rowFormat = some rowPieces := by decide +kernel

theorem textOf_literals (args : ℕ → Arg) (text : String) (ps : List Piece) (used : ℕ) :
    Printf.textOf args (literalPieces text ++ ps) used =
      ascii text ++ Printf.textOf args ps used := by
  unfold literalPieces
  induction ascii text with
  | nil => rfl
  | cons c cs ih =>
      show c :: Printf.textOf args (cs.map .literal ++ ps) used = _
      rw [ih]
      rfl

/-- A row, column by column. -/
def rowText (node : Buffer) : List UInt8 :=
  ascii "   " ++ (numberDirective.text (rowArgs node 0) ++ (ascii "     " ++
    (typeDirective.text (rowArgs node 1) ++ (ascii "            " ++
      (startDirective.text (rowArgs node 2) ++ (ascii "          " ++
        (sizeDirective.text (rowArgs node 3) ++ ascii "Mb\n ")))))))

theorem textOf_rowPieces (node : Buffer) :
    Printf.textOf (rowArgs node) rowPieces 0 = rowText node := by
  have hdirective : ∀ (d : Directive) (ps : List Piece) (used : ℕ),
      Printf.textOf (rowArgs node) ([.directive d] ++ ps) used =
        d.text (rowArgs node used) ++ Printf.textOf (rowArgs node) ps (used + 1) :=
    fun _ _ _ => rfl
  have hlast : Printf.textOf (rowArgs node) (literalPieces "Mb\n ") 4 = ascii "Mb\n " := by
    have h := textOf_literals (rowArgs node) "Mb\n " [] 4
    rwa [List.append_nil, Printf.textOf, List.append_nil] at h
  simp only [rowPieces, List.append_assoc, textOf_literals, hdirective, hlast, rowText]

/-- The text of a row fits into the buffer of `kprintf`. -/
theorem length_rowText_lt (node : Buffer) : (rowText node).length < Printf.bufferSize := by
  have hle := Printf.length_textOf_le (rowArgs node) rowPieces 0
  have htype : (cString (typeBytes node)).length ≤ 19 :=
    (List.takeWhile_sublist _).length_le.trans (by simp [typeBytes])
  have hbound : typeDirective.bound (rowArgs node 1) ≤ 19 :=
    max_le (show 10 ≤ 19 by decide) htype
  have hblanks : (ascii "   ").length = 3 ∧ (ascii "     ").length = 5 ∧
      (ascii "            ").length = 12 ∧ (ascii "          ").length = 10 ∧
      (ascii "Mb\n ").length = 4 := by decide
  have hlast := lengthBound_literals (rowArgs node) "Mb\n " [] 4
  rw [List.append_nil] at hlast
  rw [textOf_rowPieces] at hle
  simp only [rowPieces, List.append_assoc, lengthBound_literals, lengthBound_directive, hlast,
    hblanks] at hle
  have hrest : (rowText node).length ≤
      3 + (11 + (5 + (typeDirective.bound (rowArgs node 1) + (12 + (11 + (10 + (11 +
        (4 + 0)))))))) := hle
  simp only [Printf.bufferSize]
  omega

theorem formatted_tableRow (node : Buffer) :
    formatted (tableRow node).fmt (tableRow node).args = .ok (cString (rowText node)) :=
  formatted_of_parse parse_rowFormat (textOf_rowPieces node) (length_rowText_lt node)

/-- No call of `cmd_ppart` overflows the buffer, whatever the records hold. -/
theorem formatted_cmdPpart (p : PartState) {call : Call} (hmem : call ∈ cmdPpart p) :
    ∃ text, formatted call.fmt call.args = .ok text := by
  rcases List.mem_cons.mp hmem with rfl | hmem
  · have hparse : Printf.parse tableHeader.fmt = some (literalPieces
        "Partition      Type          Starting LBA         Patition Size\n ") := by
      decide +kernel
    have htext := textOf_literals tableHeader.args
      "Partition      Type          Starting LBA         Patition Size\n " [] 0
    rw [List.append_nil] at htext
    exact ⟨_, formatted_of_parse hparse htext (by decide)⟩
  · obtain ⟨node, _, rfl⟩ := List.mem_map.mp hmem
    exact ⟨_, formatted_tableRow node⟩

/-! ## The number in front -/

theorem firstWord_eq {word rest : List UInt8} (hne : word ≠ [])
    (hword : ∀ c ∈ word, c ≠ 0 ∧ c ≠ 32) :
    firstWord (cString (ascii "   " ++ (word ++ 32 :: rest))) = word := by
  have hzero : ∀ c ∈ ascii "   " ++ (word ++ [32]), (c != 0) = true := by
    intro c hc
    simp only [List.mem_append, List.mem_singleton] at hc
    rcases hc with hc | hc | rfl
    · have hspace : c = 32 := by simpa [ascii] using hc
      rw [hspace]
      decide
    · simpa using (hword c hc).1
    · decide
  have hcut : cString (ascii "   " ++ (word ++ 32 :: rest)) =
      [32, 32, 32] ++ (word ++ 32 :: cString rest) := by
    have hsplit : ascii "   " ++ (word ++ 32 :: rest) =
        (ascii "   " ++ (word ++ [32])) ++ rest := by simp
    rw [cString, hsplit, List.takeWhile_append_of_pos hzero]
    simp [cString, ascii]
  have hdrop : ([32, 32, 32] ++ (word ++ 32 :: cString rest)).dropWhile (· == 32) =
      word ++ 32 :: cString rest := by
    obtain ⟨c, cs, rfl⟩ := List.exists_cons_of_ne_nil hne
    have hc : (c == 32) = false := by simpa using (hword c List.mem_cons_self).2
    simp [List.dropWhile, hc]
  have hblank : ∀ c ∈ word, (c != 32) = true := fun c hc => by simpa using (hword c hc).2
  rw [firstWord, hcut, hdrop, List.takeWhile_append_of_pos hblank,
    List.takeWhile_cons_of_neg (by simp), List.append_nil]

theorem text_number {node : Buffer} (hnumber : le32 node nameOffset < 2 ^ 31) :
    numberDirective.text (rowArgs node 0) = numeral false 10 (le32 node nameOffset) := by
  have hword : (UInt32.ofNat (le32 node nameOffset)).toNat = le32 node nameOffset :=
    UInt32.toNat_ofNat_of_lt' (lt_trans hnumber (by decide))
  have hbits : numberDirective.bits (rowArgs node 0) = le32 node nameOffset := hword
  have hpositive : numberDirective.negative (rowArgs node 0) = false := by
    simp only [Directive.negative, hbits, decide_eq_false_iff_not]
    omega
  have hmagnitude : numberDirective.magnitude (rowArgs node 0) = le32 node nameOffset := by
    rw [Directive.magnitude, hpositive, hbits]
    rfl
  have hbody : numberDirective.body (rowArgs node 0) =
      numeral false 10 (le32 node nameOffset) := by
    rw [← hmagnitude]
    rfl
  have hsign : numberDirective.sign (rowArgs node 0) = [] := by
    rw [Directive.sign, hpositive]
    rfl
  rw [Directive.text, hbody, hsign]
  simp [Printf.field, numberDirective]

theorem firstWord_row {node : Buffer} (hnumber : le32 node nameOffset < 2 ^ 31) :
    firstWord (cString (rowText node)) = numeral false 10 (le32 node nameOffset) := by
  obtain ⟨ds, htext, hds⟩ :=
    Printf.numeral_isDigits false (show 2 ≤ 10 by decide) (le32 node nameOffset)
  rw [rowText, text_number hnumber]
  refine firstWord_eq ?_ ?_
  · rw [htext]
    simpa using hds.ne
  · intro c hc
    rw [htext] at hc
    obtain ⟨d, hd, rfl⟩ := List.mem_map.mp hc
    have hvalue := Printf.digit_toNat (hds.lt d hd)
    constructor <;>
      · intro hzero
        rw [hzero] at hvalue
        simp at hvalue

end Text

end Partition

/-! ## Back to the record -/

namespace Shell

open Janus86.Partition Video

/-- What `root` should do with a record: call the routine of the driver that is registered
for its type, with its start, if there is one. -/
def Surroundings.mountRecord (e : Surroundings) (node : Buffer) (w : World) :
    Except Fault World :=
  match Fs.driverFor w.machine.drvList (node typeByteOffset) with
  | none => .ok w
  | some d => do
      let (_, m) ← Fs.callRoot e.kernel.rootRoutine d (le32 node stLbaOffset) w.machine
      pure { w with machine := m }

theorem Surroundings.cmdRoot_of_record {e : Surroundings} {digits : List UInt8} {node : Buffer}
    (hzero : 0 ∉ digits)
    (hnode : Fs.partitionNode e.partitions (toInt32 (e.atoi digits)) = node) (w : World) :
    e.cmdRoot 2 (112 :: digits) w = e.mountRecord node w := by
  subst hnode
  rw [e.cmdRoot_partition hzero, Fs.fsRoot, Surroundings.mountRecord]
  dsimp only
  cases Fs.driverFor w.machine.drvList
      (Fs.partitionNode e.partitions (toInt32 (e.atoi digits)) typeByteOffset) with
  | none => rfl
  | some d =>
      dsimp only
      cases Fs.callRoot e.kernel.rootRoutine d
          (le32 (Fs.partitionNode e.partitions (toInt32 (e.atoi digits))) stLbaOffset)
          w.machine <;> rfl

theorem zero_not_mem_numeral (n : ℕ) : 0 ∉ Printf.numeral false 10 n := by
  obtain ⟨ds, htext, hds⟩ := Printf.numeral_isDigits false (show 2 ≤ 10 by decide) n
  rw [htext]
  intro hmem
  obtain ⟨d, hd, hzero⟩ := List.mem_map.mp hmem
  exact Printf.digit_ne_zero false ((hds.lt d hd).trans (by decide)) hzero

/-- From the table back to the disk: the row that `ppart` prints for a record fits into the
buffer of `kprintf`, the name of the type ends inside the record, and `root p` with the first
word of the row works on that record. -/
theorem row_mounts_record {e : Surroundings} {disk : Disk} {numIdeDrives fuel : ℕ}
    {heap : PartState}
    (hscan : readDiskPartitions disk numIdeDrives fuel heap = .ok e.partitions)
    (hcount : e.partitions.records.length < 2 ^ 31)
    (hatoi : ∀ s, ∃ val : UInt32, e.atoi s = Atoi.atoi s val.toNat) {k : ℕ} {node : Buffer}
    (hnode : e.partitions.records[k]? = some node) (w : World) :
    0 ∈ typeBytes node ∧ ∃ text, formatted (tableRow node).fmt (tableRow node).args = .ok text ∧
      e.cmdRoot 2 (112 :: firstWord text) w = e.mountRecord node w := by
  have hnumbered := numbered_readDiskPartitions hscan
  obtain ⟨hk, _⟩ := List.getElem?_eq_some_iff.mp hnode
  have hnumber : le32 node nameOffset = k + 1 := by
    rw [hnumbered.number k node hnode, Nat.mod_eq_of_lt (by omega)]
  refine ⟨List.mem_map.mpr ⟨18, by decide, hnumbered.ended node (List.mem_of_getElem? hnode)⟩,
    _, formatted_tableRow node, ?_⟩
  rw [firstWord_row (by omega), hnumber]
  refine Surroundings.cmdRoot_of_record (zero_not_mem_numeral _) ?_ w
  obtain ⟨val, hval⟩ := hatoi (Printf.numeral false 10 (k + 1))
  rw [hval, Atoi.atoi_numeral, Nat.mod_eq_of_lt (by omega), toInt32_of_lt (by omega)]
  exact hnumbered.partitionNode hcount hnode

/-- A disk whose second slot is a FAT32 partition. -/
def oneFatScan : Except Fault PartState :=
  readDiskPartitions
    (tableDisk fun n => if n = 0 then [(0, 0, 0), (0x0C, 63, 409600)] else []) 1 1 (heapOf 0xAA)

def oneFat : PartState := oneFatScan.toOption.getD (heapOf 0)

theorem oneFatScan_eq : oneFatScan = .ok oneFat := by
  obtain ⟨p, hscan, _⟩ := exists_ok_of_any (show oneFatScan.toOption.any (fun _ => true) = true by
    decide +kernel)
  rw [oneFat, hscan]
  rfl

theorem oneFat_records : oneFat.records.length = 4 := by decide +kernel

def oneFatSurroundings : Surroundings :=
  { treeSurroundings with
    partitions := oneFat
    atoi := fun s => Atoi.atoi s 0 }

theorem row_mounts_record_second :
    ∃ node, oneFat.records[1]? = some node ∧ 0 ∈ typeBytes node ∧
      ∃ text, formatted (tableRow node).fmt (tableRow node).args = .ok text ∧
        oneFatSurroundings.cmdRoot 2 (112 :: firstWord text)
            ⟨Fs.treeStarted, fun _ => 0, kernelInUse⟩ =
          oneFatSurroundings.mountRecord node ⟨Fs.treeStarted, fun _ => 0, kernelInUse⟩ := by
  have hrow := List.getElem?_eq_getElem (show 1 < oneFat.records.length by
    rw [oneFat_records]
    decide)
  exact ⟨_, hrow, row_mounts_record (e := oneFatSurroundings) oneFatScan_eq
    (by rw [show oneFatSurroundings.partitions = oneFat from rfl, oneFat_records]; decide)
    (fun _ => ⟨0, rfl⟩) hrow ⟨Fs.treeStarted, fun _ => 0, kernelInUse⟩⟩

end Shell
end Janus86
