import Janus86.BootModel

/-!
# What the boot sector loads

`load_sectors` turns the number of a sector into cylinder, head and sector, and asks for
that sector until it gets it, so that the memory ends up with the sectors in a row however
often the drive fails in between.  The number, the place and the count live on the stack
while a sector is read.  The boot sector loads the kernel in this way, and then waits for
the keyboard controller before each byte that opens the address line.
-/

namespace Janus86
namespace Boot

open StepMachine

variable {b : Bios} {m : Machine}

/-! ## Registers -/

@[simp] theorem low_setLow (r v : ℕ) : low (setLow r v) = v % 2 ^ 8 := by
  simp only [low, setLow]
  omega

@[simp] theorem high_setLow (r v : ℕ) : high (setLow r v) = high r := by
  simp only [high, setLow]
  omega

@[simp] theorem low_setHigh (r v : ℕ) : low (setHigh r v) = low r := by
  simp only [low, setHigh]
  omega

@[simp] theorem high_setHigh (r v : ℕ) : high (setHigh r v) = v % 2 ^ 8 := by
  simp only [high, low, setHigh]
  omega

theorem low_eq {h l : ℕ} (hl : l < 2 ^ 8) : low (2 ^ 8 * h + l) = l := by
  simp only [low]
  omega

theorem high_eq {h l : ℕ} (hh : h < 2 ^ 8) (hl : l < 2 ^ 8) : high (2 ^ 8 * h + l) = h := by
  simp only [high]
  omega

/-! ## Stored sectors -/

theorem storeSectors_zero (byte : ℕ → ℕ → UInt8) (address first : ℕ) (mem : Buffer) :
    storeSectors byte address first 0 mem = mem := by
  funext a
  exact if_neg (by omega)

/-- One more sector behind those that are stored; what stood in its place does not matter. -/
theorem storeSectors_succ {byte : ℕ → ℕ → UInt8} {address first k : ℕ} {mem mem' : Buffer}
    (hsame : ∀ a, a < address + 512 * k ∨ address + 512 * k + 512 ≤ a →
      mem' a = storeSectors byte address first k mem a) :
    storeSectors byte (address + 512 * k) (first + k) 1 mem' =
      storeSectors byte address first (k + 1) mem := by
  funext a
  by_cases hin : address + 512 * k ≤ a ∧ a < address + 512 * k + 512
  · have hsector : (a - address) / 512 = k := by omega
    have hbyte : (a - address) % 512 = a - (address + 512 * k) := by omega
    have hzero : (a - (address + 512 * k)) / 512 = 0 := by omega
    have hlow : (a - (address + 512 * k)) % 512 = a - (address + 512 * k) := by omega
    rw [storeSectors, if_pos (by omega), storeSectors, if_pos (by omega), hsector, hbyte, hzero,
      hlow, Nat.add_zero]
  · have hrange : (address ≤ a ∧ a < address + 512 * (k + 1)) ↔
        (address ≤ a ∧ a < address + 512 * k) := by omega
    rw [storeSectors, if_neg (by omega), hsame a (by omega), storeSectors, storeSectors]
    simp only [hrange]

/-! ## The disk service -/

/-- The calls of the service that succeed. -/
def Bios.Works (b : Bios) (n : ℕ) : Prop := b.fails n = false

instance (b : Bios) : DecidablePred b.Works := by
  unfold Bios.Works
  infer_instance

/-- So many of the calls from one on succeed. -/
def Bios.Answers (b : Bios) (start n : ℕ) : Prop :=
  ∃ c, Nat.count b.Works start + n ≤ Nat.count b.Works c

theorem count_of_works {n : ℕ} (hworks : b.fails n = false) :
    Nat.count b.Works (n + 1) = Nat.count b.Works n + 1 :=
  Nat.count_succ_eq_succ_count_iff.mpr hworks

theorem count_of_fails {n : ℕ} (hfails : b.fails n = true) :
    Nat.count b.Works (n + 1) = Nat.count b.Works n := by
  refine Nat.count_succ_eq_count_iff.mpr fun hworks => ?_
  rw [Bios.Works, hfails] at hworks
  cases hworks

theorem int13_reset (hfunction : high m.ax = 0) :
    int13 b m =
      if b.fails m.calls then
        { m with ax := b.code m.calls, carry := true, calls := m.calls + 1 }
      else { m with ax := setHigh m.ax 0, carry := false, calls := m.calls + 1 } := by
  simp only [int13, hfunction, if_true]

theorem int13_read (hfunction : high m.ax = 2) (hvalid : m.Valid) :
    int13 b m =
      if b.fails m.calls then
        { m with
          ax := b.code m.calls
          carry := true
          calls := m.calls + 1
          mem := fun a =>
            if m.address ≤ a ∧ a < m.address + 512 * low m.ax then b.junk m.calls a
            else m.mem a }
      else
        { m with
          ax := setHigh m.ax 0
          carry := false
          calls := m.calls + 1
          mem := storeSectors b.byte m.address m.sectorNumber (low m.ax) m.mem } := by
  simp only [int13, hfunction, hvalid, not_true_eq_false, or_false]
  rfl

theorem bootTurn_of_block {label : Label} (hlabel : label ≠ .enter) {s' : Label × Machine}
    (hblock : block b label m = .ok s') : bootTurn b (label, m) = .next s' := by
  rw [bootTurn, if_neg hlabel]
  simp only [hblock]

/-! ## The place of a sector -/

/-- The registers hold the place of a sector: 18 sectors make a track, and both sides of the
disk come before the next cylinder. -/
structure Places (m : Machine) (n : ℕ) : Prop where
  drive : low m.dx = 0
  head : high m.dx = n / sectorsPerTrack % heads
  cylinder : high m.cx = n / sectorsPerTrack / heads
  sector : low m.cx = n % sectorsPerTrack + 1

theorem loadSectors_eq (hax : m.ax < 2 ^ 8 * sectorsPerTrack) :
    ∃ ax cx dx, loadSectors m = .ok (.read, { m with
        ax := ax
        cx := cx
        dx := dx
        stack := .word m.cx :: .word m.bx :: .word m.ax :: m.stack }) ∧
      Places { m with ax := ax, cx := cx, dx := dx } m.ax := by
  have hdivisor : low (setLow m.dx 0x12) = 18 := low_setLow _ _
  simp only [sectorsPerTrack] at hax
  have hfits : ¬ 2 ^ 8 ≤ m.ax / 18 := by omega
  refine ⟨_, _, _, by simp only [loadSectors, push, hdivisor, if_neg hfits]; rfl, ?_⟩
  have hhigh : high (2 ^ 8 * (m.ax % 18) + m.ax / 18) = m.ax % 18 :=
    high_eq (by omega) (by omega)
  have hlow : low (2 ^ 8 * (m.ax % 18) + m.ax / 18) = m.ax / 18 := low_eq (by omega)
  constructor <;>
    simp only [low_setLow, high_setLow, low_setHigh, high_setHigh, hhigh, hlow,
      sectorsPerTrack, heads, Nat.and_one_is_mod]
  all_goals omega

section Places

variable {n : ℕ} (hplaces : Places m n)
include hplaces

theorem Places.sector_eq : m.sector = n % sectorsPerTrack + 1 := by
  have hlt : n % 18 < 18 := Nat.mod_lt n (by decide)
  simp only [Machine.sector, hplaces.sector, sectorsPerTrack]
  omega

theorem Places.cylinder_eq : m.cylinder = n / sectorsPerTrack / heads := by
  have hlt : n % 18 < 18 := Nat.mod_lt n (by decide)
  simp only [Machine.cylinder, hplaces.sector, hplaces.cylinder, sectorsPerTrack, heads]
  omega

theorem Places.sectorNumber_eq : m.sectorNumber = n := by
  rw [Machine.sectorNumber, hplaces.cylinder_eq, hplaces.sector_eq, Machine.head, hplaces.head]
  simp only [sectorsPerTrack, heads]
  omega

theorem Places.valid (hdisk : n < sectorsPerTrack * heads * cylinders) (hone : low m.ax = 1)
    (hpage : m.address % 2 ^ 16 + 512 ≤ 2 ^ 16) : m.Valid := by
  have hcylinder := hplaces.cylinder_eq
  have hsector := hplaces.sector_eq
  have hhead := hplaces.head
  simp only [sectorsPerTrack, heads, cylinders] at *
  refine ⟨hplaces.drive, ?_, ?_, ?_, ?_, ?_⟩
  · rw [hcylinder, cylinders]
    omega
  · rw [Machine.head, hhead, heads]
    omega
  · omega
  · rw [hone, hsector, sectorsPerTrack]
    omega
  · rw [hone]
    omega

end Places

/-! ## Loading sectors -/

/-- A call of `load_sectors`: the sectors are on the disk, their place does not leave the
segment, and it begins with a multiple of 512. -/
structure Request where
  first : ℕ
  count : ℕ
  es : ℕ
  bx : ℕ
  back : Label
  caller : Machine
  onDisk : first + count ≤ sectorsPerTrack * heads * cylinders
  aligned : (16 * es + bx) % 512 = 0
  inSegment : bx + 512 * count ≤ 2 ^ 16
  inMemory : 16 * es + 2 ^ 16 ≤ 2 ^ 20

namespace Request

variable (r : Request)

def address : ℕ := 16 * r.es + r.bx

/-- The memory after so many sectors. -/
def stored (b : Bios) (k : ℕ) : Buffer :=
  storeSectors b.byte r.address r.first k r.caller.mem

/-- What the call leaves alone. -/
structure Keeps (m : Machine) : Prop where
  es : m.es = r.es
  interrupts : m.interrupts = r.caller.interrupts
  controller : m.controller = r.caller.controller

/-- So many sectors are loaded; after the last one the call has returned. -/
structure At (b : Bios) (k : ℕ) (s : Label × Machine) : Prop where
  label : s.1 = if k < r.count then .loadSectors else r.back
  stack : s.2.stack = if k < r.count then .back r.back :: r.caller.stack else r.caller.stack
  ax : s.2.ax = r.first + k
  bx : s.2.bx = (r.bx + 512 * k) % 2 ^ 16
  cx : s.2.cx = r.count - k
  mem : s.2.mem = r.stored b k
  calls : Nat.count b.Works s.2.calls = Nat.count b.Works r.caller.calls + k
  keeps : r.Keeps s.2

/-- The next sector is asked for.  A read that fails has left something in its place. -/
structure Reading (b : Bios) (k : ℕ) (s : Label × Machine) : Prop where
  label : s.1 = .read
  stack : s.2.stack = [.word (r.count - k), .word ((r.bx + 512 * k) % 2 ^ 16),
    .word (r.first + k), .back r.back] ++ r.caller.stack
  places : Places s.2 (r.first + k)
  bx : s.2.bx = r.bx + 512 * k
  mem : ∀ a, a < r.address + 512 * k ∨ r.address + 512 * k + 512 ≤ a →
    s.2.mem a = r.stored b k a
  calls : Nat.count b.Works s.2.calls = Nat.count b.Works r.caller.calls + k
  keeps : r.Keeps s.2

variable {r}

theorem At.turn {k : ℕ} (hk : k < r.count) {s : Label × Machine} (hs : r.At b k s) :
    ∃ s', bootTurn b s = .next s' ∧ r.Reading b k s' := by
  obtain ⟨label, m⟩ := s
  obtain ⟨hlabel, hstack, hax, hbx, hcx, hmem, hcalls, hkeeps⟩ := hs
  dsimp only at *
  have hdisk : r.first + r.count ≤ 2880 := r.onDisk
  have hsegment := r.inSegment
  rw [if_pos hk] at hlabel hstack
  subst hlabel
  obtain ⟨ax, cx, dx, hblock, hplaces⟩ := loadSectors_eq (m := m)
    (by simp only [sectorsPerTrack]; omega)
  refine ⟨_, bootTurn_of_block (by simp) hblock, rfl, ?_, ?_, ?_, ?_, hcalls, ?_⟩
  · simp [hstack, hax, hbx, hcx]
  · rw [hax] at hplaces
    exact ⟨hplaces.drive, hplaces.head, hplaces.cylinder, hplaces.sector⟩
  · dsimp only
    omega
  · exact fun a _ => congrFun hmem a
  · exact ⟨hkeeps.es, hkeeps.interrupts, hkeeps.controller⟩

theorem Reading.address_eq {k : ℕ} (hk : k < r.count) {s : Label × Machine}
    (hs : r.Reading b k s) :
    s.2.address = r.address + 512 * k ∧ s.2.address % 2 ^ 16 + 512 ≤ 2 ^ 16 := by
  have haligned := r.aligned
  have hsegment := r.inSegment
  have hmemory := r.inMemory
  rw [Machine.address, hs.bx, hs.keeps.es, address]
  omega

/-- What `read` asks the service for. -/
def asked (m : Machine) : Machine := { m with ax := setLow (setHigh m.ax 0x02) 0x01 }

/-- Behind a read that has succeeded: the numbers are taken from the stack again. -/
theorem read_of_success {m' : Machine} (hread : int13 b (asked m) = m')
    (hcarry : m'.carry = false) {cx bx ax : ℕ} {rest : List Cell}
    (hstack : m'.stack = .word cx :: .word bx :: .word ax :: rest) :
    read b m =
      let last := { m' with
        bx := (bx + 0x0200) % 2 ^ 16
        ax := (ax + 1) % 2 ^ 16
        cx := (cx + 2 ^ 16 - 1) % 2 ^ 16
        stack := rest }
      if last.cx ≠ 0 then .ok (.loadSectors, last) else ret last := by
  subst hread
  rw [read, ← asked]
  simp only [hcarry, Bool.false_eq_true, if_false, pop, hstack, ok_bind]

theorem Reading.turn {k : ℕ} (hk : k < r.count) {s : Label × Machine}
    (hs : r.Reading b k s) :
    ∃ s', bootTurn b s = .next s' ∧
      if b.fails s.2.calls then r.Reading b k s' ∧ s'.2.calls = s.2.calls + 1
      else r.At b (k + 1) s' := by
  obtain ⟨haddress, hpage⟩ := hs.address_eq hk
  obtain ⟨label, m⟩ := s
  obtain ⟨hlabel, hstack, hplaces, hbx, hmem, hcalls, hkeeps⟩ := hs
  dsimp only at *
  subst hlabel
  have hdisk := r.onDisk
  have hsegment := r.inSegment
  have hone : low (asked m).ax = 1 := by simp [asked]
  have hfunction : high (asked m).ax = 2 := by simp [asked]
  have hplaces' : Places (asked m) (r.first + k) :=
    ⟨hplaces.drive, hplaces.head, hplaces.cylinder, hplaces.sector⟩
  have hread := int13_read (b := b) hfunction
    (hplaces'.valid (by omega) hone (by exact hpage))
  rw [hone, hplaces'.sectorNumber_eq] at hread
  by_cases hfails : b.fails m.calls = true
  · rw [if_pos (by exact hfails)] at hread
    refine ⟨_, bootTurn_of_block (by decide) (by
      rw [block, read, ← asked, hread]; rfl), ?_⟩
    rw [if_pos hfails]
    refine ⟨⟨rfl, hstack, ?_, hbx, fun a ha => ?_, (count_of_fails hfails).trans hcalls, ?_⟩, rfl⟩
    · exact ⟨hplaces.drive, hplaces.head, hplaces.cylinder, hplaces.sector⟩
    · rw [← hmem a ha]
      refine if_neg ?_
      show ¬ (m.address ≤ a ∧ a < m.address + 512 * 1)
      omega
    · exact ⟨hkeeps.es, hkeeps.interrupts, hkeeps.controller⟩
  · rw [if_neg (by exact hfails)] at hread
    have hstored : storeSectors b.byte (asked m).address (r.first + k) 1 (asked m).mem =
        r.stored b (k + 1) := by
      rw [show (asked m).address = r.address + 512 * k from haddress]
      exact storeSectors_succ hmem
    rw [hstored] at hread
    have hax : (r.first + k + 1) % 2 ^ 16 = r.first + (k + 1) := by
      simp only [sectorsPerTrack, heads, cylinders] at hdisk
      omega
    have hbx' : ((r.bx + 512 * k) % 2 ^ 16 + 0x0200) % 2 ^ 16 =
        (r.bx + 512 * (k + 1)) % 2 ^ 16 := by omega
    have hcount : Nat.count b.Works (m.calls + 1) =
        Nat.count b.Works r.caller.calls + (k + 1) := by
      rw [count_of_works (by simpa using hfails), hcalls, Nat.add_assoc]
    have hcx : (r.count - k + 2 ^ 16 - 1) % 2 ^ 16 = r.count - (k + 1) := by omega
    have hblock := read_of_success hread rfl hstack
    dsimp only at hblock
    rw [hax, hbx', hcx] at hblock
    by_cases hlast : k + 1 < r.count
    · rw [if_pos (by omega)] at hblock
      refine ⟨_, bootTurn_of_block (by decide) hblock, ?_⟩
      rw [if_neg hfails]
      exact ⟨(if_pos hlast).symm, (if_pos hlast).symm, rfl, rfl, rfl, rfl, hcount,
        ⟨hkeeps.es, hkeeps.interrupts, hkeeps.controller⟩⟩
    · rw [if_neg (by omega)] at hblock
      refine ⟨_, bootTurn_of_block (by decide) hblock, ?_⟩
      rw [if_neg hfails]
      exact ⟨(if_neg hlast).symm, (if_neg hlast).symm, rfl, rfl, rfl, rfl, hcount,
        ⟨hkeeps.es, hkeeps.interrupts, hkeeps.controller⟩⟩

/-- However often the drive fails before, the sector comes. -/
theorem Reading.leadsTo (hanswers : b.Answers r.caller.calls r.count) {k : ℕ}
    (hk : k < r.count) : LeadsTo (bootTurn b) (r.Reading b k) (r.At b (k + 1)) := by
  obtain ⟨c, hc⟩ := hanswers
  refine LeadsTo.of_measure (fun s => c - s.2.calls) fun s hs => ?_
  have hcalls := hs.calls
  have hlt : s.2.calls < c := Nat.lt_of_count_lt_count (p := b.Works) (by omega)
  obtain ⟨s', hnext, hs'⟩ := hs.turn hk
  refine ⟨s', hnext, ?_⟩
  by_cases hfails : b.fails s.2.calls = true
  · rw [if_pos hfails] at hs'
    exact Or.inr ⟨hs'.1, by omega⟩
  · rw [if_neg hfails] at hs'
    exact Or.inl hs'

variable (r)

/-- The call of `load_sectors` returns, and the sectors are in the memory. -/
theorem leadsTo (hanswers : b.Answers r.caller.calls r.count) :
    LeadsTo (bootTurn b) (r.At b 0) (r.At b r.count) :=
  LeadsTo.count r.count fun _ hk =>
    (LeadsTo.of_turn fun _ hs => hs.turn hk).trans (Reading.leadsTo hanswers hk)

/-- The machine at the call, with its registers for it. -/
def called : Label × Machine :=
  (.loadSectors,
    { r.caller with
      ax := r.first
      bx := r.bx
      cx := r.count
      es := r.es
      stack := .back r.back :: r.caller.stack })

theorem at_called (hpos : 0 < r.count) : r.At b 0 r.called := by
  have hsegment := r.inSegment
  refine ⟨(if_pos hpos).symm, (if_pos hpos).symm, rfl, ?_, rfl, ?_, rfl, rfl, rfl, rfl⟩
  · simp only [called]
    omega
  · exact (storeSectors_zero b.byte r.address r.first r.caller.mem).symm

end Request

/-- Whatever the drive does before it has answered often enough, `load_sectors` returns with
its sectors in a row in the memory, which else is as it was, behind the last of them, and
with the stack of its caller.  The sectors are not stored over that stack, over this code or
over what the BIOS works with. -/
theorem load_sectors_copies (r : Request) (hpos : 0 < r.count)
    (hanswers : b.Answers r.caller.calls r.count) :
    ∃ m, Reaches (bootTurn b) r.called (r.back, m) ∧
      m.mem = storeSectors b.byte r.address r.first r.count r.caller.mem ∧
      m.ax = r.first + r.count ∧ m.bx = (r.bx + 512 * r.count) % 2 ^ 16 ∧ m.cx = 0 ∧
      m.stack = r.caller.stack := by
  obtain ⟨⟨label, m⟩, hreach, hs⟩ := r.leadsTo hanswers r.called (r.at_called hpos)
  have hlabel : label = r.back := hs.label.trans (if_neg (lt_irrefl _))
  have hstack := hs.stack
  rw [if_neg (lt_irrefl _)] at hstack
  subst hlabel
  exact ⟨m, hreach, hs.mem, hs.ax, hs.bx, by rw [hs.cx, Nat.sub_self], hstack⟩

/-- Every other call of the service fails. -/
def halfBios : Bios where
  byte := fun n o => UInt8.ofNat (n + o)
  fails := fun n => n % 2 == 0
  code := fun _ => 0x0400
  code_ne := fun _ => by decide
  junk := fun _ _ => 0xE5
  full := fun _ => 3

/-- The last sector of the first track and the first one of the other side, to 0x7E00. -/
def twoTracks : Request where
  first := 17
  count := 2
  es := 0
  bx := 0x7E00
  back := .afterLoad
  caller := ⟨0, 0, 0, 0, 0, false, true, [], fun _ => 0, 0, ⟨0, 0, false, 0⟩⟩
  onDisk := by decide
  aligned := by decide
  inSegment := by decide
  inMemory := by decide

theorem load_sectors_copies_two_tracks :
    ∃ m, Reaches (bootTurn halfBios) twoTracks.called (.afterLoad, m) ∧
      m.mem = storeSectors halfBios.byte 0x7E00 17 2 (fun _ => 0) ∧ m.ax = 19 ∧
      m.bx = 0x8200 ∧ m.cx = 0 ∧ m.stack = [] :=
  load_sectors_copies twoTracks (by decide) ⟨4, by decide⟩

/-! ## The kernel -/

section Kernel

variable {m₀ : Machine}

/-- The program has come so far with so many successful calls, and no sector yet. -/
structure Starting (b : Bios) (m₀ : Machine) (label : Label) (n : ℕ) (s : Label × Machine) :
    Prop where
  label : s.1 = label
  stack : s.2.stack = m₀.stack
  mem : s.2.mem = m₀.mem
  calls : Nat.count b.Works s.2.calls = Nat.count b.Works m₀.calls + n

/-- The call in `load_kernel`, once the drive is reset. -/
def kernelRequest (m : Machine) : Request where
  first := 0x01
  count := 0x40
  es := 0x1000
  bx := 0x00
  back := .afterLoad
  caller := m
  onDisk := by decide
  aligned := by decide
  inSegment := by decide
  inMemory := by decide

/-- The drive is reset, or is reset once more. -/
theorem Starting.reset {s : Label × Machine} (hs : Starting b m₀ .resetDrive 0 s) :
    ∃ s', bootTurn b s = .next s' ∧
      if b.fails s.2.calls then Starting b m₀ .resetDrive 0 s' ∧ s'.2.calls = s.2.calls + 1
      else Starting b m₀ .loadKernel 1 s' := by
  obtain ⟨label, m⟩ := s
  obtain ⟨hlabel, hstack, hmem, hcalls⟩ := hs
  dsimp only at *
  subst hlabel
  have hreset := int13_reset (b := b) (m := { m with ax := setHigh m.ax 0 }) (by simp)
  by_cases hfails : b.fails m.calls = true
  · rw [if_pos (by exact hfails)] at hreset
    refine ⟨_, bootTurn_of_block (by decide) (by
      rw [block, resetDrive, hreset]
      exact if_pos (b.code_ne m.calls)), ?_⟩
    rw [if_pos hfails]
    exact ⟨⟨rfl, hstack, hmem, (count_of_fails hfails).trans hcalls⟩, rfl⟩
  · rw [if_neg (by exact hfails)] at hreset
    refine ⟨_, bootTurn_of_block (by decide) (by
      rw [block, resetDrive, hreset]
      exact if_neg (by simp)), ?_⟩
    rw [if_neg hfails]
    refine ⟨rfl, hstack, hmem, ?_⟩
    rw [Nat.add_zero] at hcalls
    rw [← hcalls]
    exact count_of_works (by simpa using hfails)

theorem Starting.call {s : Label × Machine} (hs : Starting b m₀ .loadKernel 1 s) :
    bootTurn b s = .next (kernelRequest s.2).called := by
  obtain ⟨label, m⟩ := s
  obtain ⟨hlabel, -, -, -⟩ := hs
  dsimp only at hlabel
  subst hlabel
  exact bootTurn_of_block (by decide) rfl

theorem Starting.leadsTo (hanswers : b.Answers m₀.calls 65) :
    LeadsTo (bootTurn b) (Starting b m₀ .resetDrive 0) (Starting b m₀ .loadKernel 1) := by
  obtain ⟨c, hc⟩ := hanswers
  refine LeadsTo.of_measure (fun s => c - s.2.calls) fun s hs => ?_
  have hcalls := hs.calls
  have hlt : s.2.calls < c := Nat.lt_of_count_lt_count (p := b.Works) (by omega)
  obtain ⟨s', hnext, hs'⟩ := hs.reset
  refine ⟨s', hnext, ?_⟩
  by_cases hfails : b.fails s.2.calls = true
  · rw [if_pos hfails] at hs'
    exact Or.inr ⟨hs'.1, by omega⟩
  · rw [if_neg hfails] at hs'
    exact Or.inl hs'

/-- The first 64 sectors behind the boot sector, from 0x10000 on. -/
def kernelMemory (b : Bios) (mem : Buffer) : Buffer := storeSectors b.byte 0x10000 1 0x40 mem

/-- The kernel is loaded, and interrupts are off; the controller waits for a byte for its
output port, or not, and the port has its value. -/
structure Handing (b : Bios) (m₀ : Machine) (label : Label) (stack : List Cell)
    (control : Controller → Prop) (s : Label × Machine) : Prop where
  label : s.1 = label
  stack : s.2.stack = stack
  mem : s.2.mem = kernelMemory b m₀.mem
  interrupts : s.2.interrupts = false
  control : control s.2.controller

/-- `empty_8042` returns when the input buffer is empty. -/
theorem Handing.emptied {back : Label} {stack : List Cell} {control : Controller → Prop}
    (hstatus : ∀ c, control c → control c.afterStatus) :
    LeadsTo (bootTurn b) (Handing b m₀ .empty8042 (.back back :: stack) control)
      (Handing b m₀ back stack fun c => control c ∧ c.full = 0) := by
  refine LeadsTo.of_measure (fun s => s.2.controller.full) fun s hs => ?_
  obtain ⟨label, m⟩ := s
  obtain ⟨hlabel, hstack, hmem, hinterrupts, hcontrol⟩ := hs
  dsimp only at *
  subst hlabel
  by_cases hfull : 0 < m.controller.full
  · have hstat : m.controller.status = 2 := if_pos hfull
    refine ⟨_, bootTurn_of_block (by decide) (by
      rw [block, empty8042, hstat]
      exact if_pos (by decide)), Or.inr ⟨⟨rfl, hstack, hmem, hinterrupts, ?_⟩, ?_⟩⟩
    · exact hstatus _ hcontrol
    · exact Nat.sub_lt hfull one_pos
  · have hstat : m.controller.status = 0 := if_neg hfull
    refine ⟨_, bootTurn_of_block (by decide) (by
      rw [block, empty8042, hstat]
      simp only [ret, hstack]
      exact if_neg (by decide)), Or.inl ⟨rfl, rfl, hmem, hinterrupts, ?_, ?_⟩⟩
    · exact hstatus _ hcontrol
    · simp only [Controller.afterStatus]
      omega

theorem awaited_afterStatus (c : Controller) (hawaited : c.awaited = true) :
    c.afterStatus.awaited = true := hawaited

theorem outputPort_afterStatus (c : Controller) (hport : c.outputPort = 0xDF) :
    c.afterStatus.outputPort = 0xDF := hport

/-- The kernel is loaded. -/
structure Loaded (b : Bios) (m₀ : Machine) (s : Label × Machine) : Prop where
  label : s.1 = .afterLoad
  stack : s.2.stack = m₀.stack
  mem : s.2.mem = kernelMemory b m₀.mem

theorem Starting.loads (hanswers : b.Answers m₀.calls 65) :
    LeadsTo (bootTurn b) (Starting b m₀ .loadKernel 1) (Loaded b m₀) := by
  intro s hs
  have henough : b.Answers s.2.calls 0x40 := by
    obtain ⟨c, hc⟩ := hanswers
    refine ⟨c, ?_⟩
    rw [hs.calls]
    omega
  obtain ⟨s', hreach, hat⟩ := (kernelRequest s.2).leadsTo henough _
    ((kernelRequest s.2).at_called (show 0 < 0x40 by decide))
  refine ⟨s', Reaches.head hs.call hreach, hat.label.trans (if_neg (lt_irrefl _)),
    (hat.stack.trans (if_neg (lt_irrefl _))).trans hs.stack, ?_⟩
  rw [hat.mem, ← hs.mem]
  rfl

/-- Behind the kernel: the command, the byte for the output port, and the jump. -/
theorem Loaded.hands_over :
    LeadsTo (bootTurn b) (Loaded b m₀)
      (Handing b m₀ .enter m₀.stack fun c => c.outputPort = 0xDF ∧ c.full = 0) := by
  have hload : LeadsTo (bootTurn b) (Loaded b m₀)
      (Handing b m₀ .empty8042 (.back .writeCommand :: m₀.stack) fun _ => True) := by
    refine LeadsTo.of_turn fun s hs => ?_
    obtain ⟨label, m⟩ := s
    obtain ⟨hlabel, hstack, hmem⟩ := hs
    dsimp only at *
    subst hlabel
    exact ⟨_, bootTurn_of_block (by decide) rfl, rfl, congrArg _ hstack, hmem, rfl, trivial⟩
  have hcommand : LeadsTo (bootTurn b)
      (Handing b m₀ .writeCommand m₀.stack fun c => True ∧ c.full = 0)
      (Handing b m₀ .empty8042 (.back .writeData :: m₀.stack) fun c => c.awaited = true) := by
    refine LeadsTo.of_turn fun s hs => ?_
    obtain ⟨label, m⟩ := s
    obtain ⟨hlabel, hstack, hmem, hinterrupts, -, hfull⟩ := hs
    dsimp only at *
    subst hlabel
    refine ⟨_, bootTurn_of_block (by decide) rfl, rfl, congrArg _ hstack, hmem, hinterrupts, ?_⟩
    show (m.controller.command b (low (setLow m.ax 0xD1))).awaited = true
    simp [Controller.command, hfull]
  have hdata : LeadsTo (bootTurn b)
      (Handing b m₀ .writeData m₀.stack fun c => c.awaited = true ∧ c.full = 0)
      (Handing b m₀ .empty8042 (.back .enter :: m₀.stack) fun c => c.outputPort = 0xDF) := by
    refine LeadsTo.of_turn fun s hs => ?_
    obtain ⟨label, m⟩ := s
    obtain ⟨hlabel, hstack, hmem, hinterrupts, hawaited, hfull⟩ := hs
    dsimp only at *
    subst hlabel
    refine ⟨_, bootTurn_of_block (by decide) rfl, rfl, congrArg _ hstack, hmem, hinterrupts, ?_⟩
    show (m.controller.data b (low (setLow m.ax 0xDF))).outputPort = 0xDF
    simp [Controller.data, hfull, hawaited]
  exact hload.trans <| (Handing.emptied fun _ h => h).trans <| hcommand.trans <|
    (Handing.emptied awaited_afterStatus).trans <| hdata.trans <|
      Handing.emptied outputPort_afterStatus

/-- While too few calls have succeeded, the program goes on. -/
inductive Unfinished (b : Bios) (m₀ : Machine) (s : Label × Machine) : Prop
  | resetting (hs : Starting b m₀ .resetDrive 0 s)
  | calling (hs : Starting b m₀ .loadKernel 1 s)
  | choosing {m : Machine} {k : ℕ} (hk : k < 0x40)
      (hcalls : Nat.count b.Works m.calls = Nat.count b.Works m₀.calls + 1)
      (hs : (kernelRequest m).At b k s)
  | reading {m : Machine} {k : ℕ} (hk : k < 0x40)
      (hcalls : Nat.count b.Works m.calls = Nat.count b.Works m₀.calls + 1)
      (hs : (kernelRequest m).Reading b k s)

theorem Unfinished.turn (hanswers : ¬ b.Answers m₀.calls 65) {s : Label × Machine}
    (hs : Unfinished b m₀ s) : ∃ s', bootTurn b s = .next s' ∧ Unfinished b m₀ s' := by
  cases hs with
  | resetting hs =>
      obtain ⟨s', hnext, hs'⟩ := hs.reset
      refine ⟨s', hnext, ?_⟩
      by_cases hfails : b.fails s.2.calls = true
      · rw [if_pos hfails] at hs'
        exact .resetting hs'.1
      · rw [if_neg hfails] at hs'
        exact .calling hs'
  | calling hs =>
      exact ⟨_, hs.call, .choosing (by decide) hs.calls
        ((kernelRequest s.2).at_called (show 0 < 0x40 by decide))⟩
  | choosing hk hcalls hs =>
      obtain ⟨s', hnext, hs'⟩ := hs.turn hk
      exact ⟨s', hnext, .reading hk hcalls hs'⟩
  | @reading m k hk hcalls hs =>
      obtain ⟨s', hnext, hs'⟩ := hs.turn hk
      refine ⟨s', hnext, ?_⟩
      by_cases hfails : b.fails s.2.calls = true
      · rw [if_pos hfails] at hs'
        exact .reading hk hcalls hs'.1
      · rw [if_neg hfails] at hs'
        refine .choosing (Nat.lt_of_le_of_ne hk fun hlast => hanswers ?_) hcalls hs'
        -- the last sector would be the answer to the 65th call
        have hcount := hs'.calls
        refine ⟨s'.2.calls, ?_⟩
        simp only [kernelRequest] at hcount
        omega

/-- How the kernel is entered. -/
structure KernelEntered (b : Bios) (m₀ m : Machine) : Prop where
  image : ∀ i < 512 * 0x40, m.mem (0x10000 + i) = b.byte (1 + i / 512) (i % 512)
  others : ∀ a, a < 0x10000 ∨ 0x18000 ≤ a → m.mem a = m₀.mem a
  stack : m.stack = m₀.stack
  interrupts : m.interrupts = false
  a20 : m.controller.A20

theorem Handing.entered {s : Label × Machine}
    (hs : Handing b m₀ .enter m₀.stack (fun c => c.outputPort = 0xDF ∧ c.full = 0) s) :
    KernelEntered b m₀ s.2 where
  image := by
    intro i hi
    rw [hs.mem, kernelMemory, storeSectors, if_pos (by omega), Nat.add_sub_cancel_left]
  others := by
    intro a ha
    rw [hs.mem]
    exact if_neg (by omega)
  stack := hs.stack
  interrupts := hs.interrupts
  a20 := by
    rw [Controller.A20, hs.control.1]
    decide

/-- The kernel is entered exactly when the drive answers 65 calls, however many fail in
between: one for the reset and one for each sector.  Then the 64 sectors behind the boot
sector stand at 0x10000, nothing else in the memory has changed, interrupts are off and the
address line is open.  The stack, this code and what the BIOS works with are outside of
0x10000 to 0x17FFF. -/
theorem boot_enters_kernel (b : Bios) (m₀ : Machine) :
    ((∃ result, Halts (bootTurn b) (.resetDrive, m₀) result) ↔ b.Answers m₀.calls 65) ∧
      ∀ result, Halts (bootTurn b) (.resetDrive, m₀) result →
        ∃ m, result = .ok m ∧ KernelEntered b m₀ m := by
  have hstart : Starting b m₀ .resetDrive 0 (.resetDrive, m₀) := ⟨rfl, rfl, rfl, rfl⟩
  have henters : b.Answers m₀.calls 65 → ∃ m,
      Halts (bootTurn b) (.resetDrive, m₀) (.ok m) ∧ KernelEntered b m₀ m := by
    intro hanswers
    have hleads := (Starting.leadsTo hanswers).trans
      ((Starting.loads hanswers).trans Loaded.hands_over)
    obtain ⟨s, hs, hhalts⟩ := hleads.halts (fun s => .ok s.2)
      (fun s hs => if_pos hs.label) hstart
    exact ⟨s.2, hhalts, hs.entered⟩
  have hnever : ¬ b.Answers m₀.calls 65 → ∀ result,
      ¬ Halts (bootTurn b) (.resetDrive, m₀) result := by
    intro hanswers
    exact not_halts_of_invariant (fun s (hs : Unfinished b m₀ s) => hs.turn hanswers)
      (Unfinished.resetting hstart)
  refine ⟨⟨fun ⟨result, hhalts⟩ => ?_, fun hanswers => ?_⟩, fun result hhalts => ?_⟩
  · by_contra hanswers
    exact hnever hanswers result hhalts
  · obtain ⟨m, hhalts, _⟩ := henters hanswers
    exact ⟨_, hhalts⟩
  · by_cases hanswers : b.Answers m₀.calls 65
    · obtain ⟨m, hends, hentered⟩ := henters hanswers
      exact ⟨m, hhalts.unique hends, hentered⟩
    · exact absurd hhalts (hnever hanswers result)

end Kernel

end Boot
end Janus86
