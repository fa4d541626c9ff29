import Janus86.IdtModel

/-!
# The way of an interrupt

Behind `Init8259` and `InitIDT` a line of a controller leads to the handler that was set
for its vector last, whatever calls of `enable_irq`, `disable_irq` and `set_vector` come in
between, and it gets there exactly when the last call on the line was `enable_irq`.
`InitIDT` leaves the gate of vector 11 empty: what is sent there ends in the handler of
exception 13, or of the double fault.
-/

namespace Janus86
namespace Irq

inductive Op where
  | call (call : Call)
  | setVector (handler : BitVec 32) (interrupt : BitVec 8)

def Op.run (s : System) : Op → System
  | .call c => s.call c
  | .setVector handler interrupt => Irq.setVector handler interrupt vectorControl s

def booted (handlers : Handlers) (s : System) : System := initIDT handlers (init8259 s)

def afterOps (handlers : Handlers) (s : System) (ops : List Op) : System :=
  ops.foldl Op.run (booted handlers s)

def Op.toCall : Op → Option Call
  | .call c => some c
  | .setVector _ _ => none

def callsOf (ops : List Op) : List Call := ops.filterMap Op.toCall

/-- The handlers of `InitIDT`. -/
def Handlers.initial (handlers : Handlers) (vector : BitVec 8) : Option (BitVec 32) :=
  if vector = 11 then none
  else if vector.toNat ≤ 16 then some (handlers.int vector.toNat)
  else some handlers.intNull

/-- What a step makes of the handler of a vector. -/
def Op.replace (vector : BitVec 8) (handler : Option (BitVec 32)) : Op → Option (BitVec 32)
  | .call _ => handler
  | .setVector handler' interrupt => if interrupt = vector then some handler' else handler

/-- The handler that was set for a vector last. -/
def handlerOf (handlers : Handlers) (ops : List Op) (vector : BitVec 8) :
    Option (BitVec 32) :=
  ops.foldl (Op.replace vector) (handlers.initial vector)

/-- The vector whose handler answers an event. -/
def answering (handlers : Handlers) (ops : List Op) (event : Event) : BitVec 8 :=
  if (handlerOf handlers ops event.vector).isSome then event.vector
  else if event.contributory then 8 else 13

/-- A controller that is told its vectors and its place, and takes masks. -/
structure Chip.Ready (c : Chip) (base cascade : BitVec 8) : Prop where
  expects : c.expects = .mask
  vectorBase : c.vectorBase = base
  cascade : c.cascade = cascade
  icw4 : c.icw4 = ICW4

/-- The controllers hold the two bytes of `irq_mask`, and each vector has the gate of its
handler, or none. -/
structure Wired (handlers : Handlers) (ops : List Op) (cs : BitVec 16) (s : System) :
    Prop where
  shows : Shows (callsOf ops) s.pic.irqMask
  master : s.chips.master.Ready M_VEC (1#8 <<< 2)
  slave : s.chips.slave.Ready S_VEC 2
  masterMask : ∀ i < 8, s.chips.master.imr.getLsbD i = s.pic.irqMask.getLsbD i
  slaveMask : ∀ i < 8, s.chips.slave.imr.getLsbD i = s.pic.irqMask.getLsbD (8 + i)
  cs_eq : s.cs = cs
  gates : ∀ vector handler, handlerOf handlers ops vector = some handler →
    s.idt vector = gate handler cs vectorControl

variable {handlers : Handlers} {ops : List Op} {s : System} {cs : BitVec 16}

/-! ## Gates -/

section Gate

variable {handler : BitVec 32} {selector access : BitVec 16}

theorem getLsbD_gate (i : ℕ) :
    (gate handler selector access).getLsbD i =
      if i < 16 then handler.getLsbD i
      else if i < 32 then selector.getLsbD (i - 16)
      else if i < 48 then access.getLsbD (i - 32)
      else handler.getLsbD (i - 32) && decide (i < 64) := by
  have hlow : (handler &&& 0xFFFF).setWidth 16 = handler.setWidth 16 := by
    apply BitVec.eq_of_toNat_eq
    rw [BitVec.toNat_setWidth, BitVec.toNat_setWidth, BitVec.toNat_and]
    exact congrArg (· % 2 ^ 16) (Nat.and_two_pow_sub_one_eq_mod _ 16) |>.trans
      (Nat.mod_mod _ _)
  unfold gate
  rw [hlow, BitVec.getLsbD_append, BitVec.getLsbD_append, BitVec.getLsbD_append,
    BitVec.getLsbD_setWidth, BitVec.getLsbD_setWidth, BitVec.getLsbD_ushiftRight]
  grind

theorem selector_gate : (gate handler selector access).extractLsb' 16 16 = selector := by
  apply BitVec.eq_of_getLsbD_eq
  intro i hi
  rw [BitVec.getLsbD_extractLsb', getLsbD_gate]
  grind

theorem access_gate : (gate handler selector access).extractLsb' 32 16 = access := by
  apply BitVec.eq_of_getLsbD_eq
  intro i hi
  rw [BitVec.getLsbD_extractLsb', getLsbD_gate]
  grind

theorem offset_gate :
    (gate handler selector access).extractLsb' 48 16 ++
      (gate handler selector access).extractLsb' 0 16 = handler := by
  apply BitVec.eq_of_getLsbD_eq
  intro i hi
  rw [BitVec.getLsbD_append, BitVec.getLsbD_extractLsb', BitVec.getLsbD_extractLsb',
    getLsbD_gate, getLsbD_gate]
  grind

/-- The processor finds in a gate what was put there. -/
theorem enter_gate {idt : BitVec 8 → BitVec 64} {vector : BitVec 8}
    (hgate : idt vector = gate handler selector vectorControl) :
    enter idt vector = .ok ⟨selector, handler⟩ := by
  have htype : vectorControl.extractLsb' 8 5 = 0x0E := by decide
  have hpresent : vectorControl.getLsbD 15 = true := by decide
  simp only [enter, hgate, access_gate, selector_gate, offset_gate, htype, hpresent, true_or,
    if_true]

theorem enter_empty {idt : BitVec 8 → BitVec 64} {vector : BitVec 8}
    (hempty : idt vector = 0) : enter idt vector = .error 13 := by
  rw [enter, hempty]
  decide

end Gate

/-! ## The table behind InitIDT -/

theorem setVector_idt (handler : BitVec 32) (interrupt : BitVec 8) (access : BitVec 16) :
    (setVector handler interrupt access s).idt =
      Function.update s.idt interrupt (gate handler s.cs access) := rfl

/-- A run of calls that set vectors touches the table only, and of that only these
gates. -/
structure SetsVectors (vectors : List (BitVec 8)) (handler : BitVec 8 → BitVec 32)
    (s s' : System) : Prop where
  pic : s'.pic = s.pic
  chips : s'.chips = s.chips
  cs : s'.cs = s.cs
  set : ∀ vector ∈ vectors, s'.idt vector = gate (handler vector) s.cs vectorControl
  kept : ∀ vector, vector ∉ vectors → s'.idt vector = s.idt vector

theorem setsVectors_foldl {ns : List ℕ} {handler : ℕ → BitVec 32}
    {byVector : BitVec 8 → BitVec 32}
    (hhandler : ∀ n ∈ ns, byVector (BitVec.ofNat 8 n) = handler n) :
    SetsVectors (ns.map (BitVec.ofNat 8)) byVector s
      (ns.foldl (fun s n => setVector (handler n) (BitVec.ofNat 8 n) vectorControl s) s) := by
  induction ns using List.reverseRecOn with
  | nil => exact ⟨rfl, rfl, rfl, by simp, fun _ _ => rfl⟩
  | append_singleton ns n ih =>
      have hbefore := ih fun m hm => hhandler m (List.mem_append_left _ hm)
      have hlast := hhandler n (by simp)
      rw [List.foldl_append, List.foldl_cons, List.foldl_nil, List.map_append]
      refine ⟨hbefore.pic, hbefore.chips, hbefore.cs, fun vector hvector => ?_,
        fun vector hvector => ?_⟩
      · rw [setVector_idt, hbefore.cs]
        by_cases hsame : vector = BitVec.ofNat 8 n
        · rw [hsame, Function.update_self, hlast]
        · rw [Function.update_of_ne hsame]
          refine hbefore.set vector ?_
          simpa [hsame] using hvector
      · simp only [List.map_cons, List.map_nil, List.mem_append, List.mem_singleton,
          not_or] at hvector
        rw [setVector_idt, Function.update_of_ne hvector.2]
        exact hbefore.kept vector hvector.1

theorem initIDT_idt (handlers : Handlers) (s : System) (vector : BitVec 8) :
    (initIDT handlers s).idt vector =
      match handlers.initial vector with
      | none => s.idt vector
      | some handler => gate handler s.cs vectorControl := by
  have hloop := @setsVectors_foldl s (List.range' 16 240) (fun _ => handlers.intNull)
    (fun _ => handlers.intNull) fun _ _ => rfl
  have hlow : ∀ n ∈ intVectors, (BitVec.ofNat 8 n).toNat = n := by decide
  have hcalls := @setsVectors_foldl
    ((List.range' 16 240).foldl (fun s count =>
      setVector handlers.intNull (BitVec.ofNat 8 count) vectorControl s) s)
    intVectors handlers.int (fun vector => handlers.int vector.toNat)
    fun n hn => congrArg handlers.int (hlow n hn)
  have hmemLow : ∀ n < 256, BitVec.ofNat 8 n ∈ intVectors.map (BitVec.ofNat 8) ↔
      n ≤ 16 ∧ n ≠ 11 := by decide +kernel
  have hmemHigh : ∀ n < 256, BitVec.ofNat 8 n ∈ (List.range' 16 240).map (BitVec.ofNat 8) ↔
      16 ≤ n := by decide +kernel
  have hvector : BitVec.ofNat 8 vector.toNat = vector := BitVec.eq_of_toNat_eq (by simp)
  have hlowIff := hmemLow vector.toNat vector.isLt
  have hhighIff := hmemHigh vector.toNat vector.isLt
  rw [hvector] at hlowIff hhighIff
  have heleven : vector = 11 ↔ vector.toNat = 11 := BitVec.toNat_inj.symm
  unfold Handlers.initial initIDT
  by_cases hmissing : vector = 11
  · rw [if_pos hmissing, hcalls.kept vector fun h => (hlowIff.mp h).2 (heleven.mp hmissing),
      hloop.kept vector fun h => by
        have hle := hhighIff.mp h
        rw [heleven.mp hmissing] at hle
        omega]
  · rw [if_neg hmissing]
    by_cases hle : vector.toNat ≤ 16
    · rw [if_pos hle, hcalls.set vector (hlowIff.mpr ⟨hle, fun h => hmissing (heleven.mpr h)⟩),
        hloop.cs]
    · rw [if_neg hle, hcalls.kept vector fun h => hle (hlowIff.mp h).1,
        hloop.set vector (hhighIff.mpr (by omega))]

theorem initIDT_rest (handlers : Handlers) (s : System) :
    (initIDT handlers s).pic = s.pic ∧ (initIDT handlers s).chips = s.chips ∧
      (initIDT handlers s).cs = s.cs := by
  have hloop := @setsVectors_foldl s (List.range' 16 240) (fun _ => handlers.intNull)
    (fun _ => handlers.intNull) fun _ _ => rfl
  have hlow : ∀ n ∈ intVectors, (BitVec.ofNat 8 n).toNat = n := by decide
  have hcalls := @setsVectors_foldl
    ((List.range' 16 240).foldl (fun s count =>
      setVector handlers.intNull (BitVec.ofNat 8 count) vectorControl s) s)
    intVectors handlers.int (fun vector => handlers.int vector.toNat)
    fun n hn => congrArg handlers.int (hlow n hn)
  exact ⟨hcalls.pic.trans hloop.pic, hcalls.chips.trans hloop.chips, hcalls.cs.trans hloop.cs⟩

/-! ## The controllers behind Init8259 -/

theorem init8259_chips (s : System) :
    (init8259 s).chips =
      ⟨⟨.mask, ICW1, M_VEC, 1#8 <<< 2, ICW4, 0xFF⟩, ⟨.mask, ICW1, S_VEC, 2, ICW4, 0xFF⟩⟩ := by
  simp [init8259, System.outportb, Chips.outportb, M_PIC, S_PIC, M_IMR, S_IMR, Chip.data,
    Chip.command, ICW1, M_VEC, S_VEC]

theorem wired_booted (handlers : Handlers) {s : System} (hmask : s.pic.irqMask = 0xFFFF) :
    Wired handlers [] s.cs (booted handlers s) := by
  obtain ⟨hpic, hchips, hcs⟩ := initIDT_rest handlers (init8259 s)
  have hirqMask : (init8259 s).pic.irqMask = s.pic.irqMask := rfl
  have hsegment : (init8259 s).cs = s.cs := rfl
  have hclosed : ∀ i < 8, (0xFF : BitVec 8).getLsbD i = true := by decide
  unfold booted
  constructor
  · rw [hpic, hirqMask, hmask]
    exact shows_start
  · rw [hchips, init8259_chips]
    exact ⟨rfl, rfl, rfl, rfl⟩
  · rw [hchips, init8259_chips]
    exact ⟨rfl, rfl, rfl, rfl⟩
  · intro i hi
    rw [hchips, init8259_chips, hpic, hirqMask, hmask, hclosed i hi, start_closed (by omega)]
  · intro i hi
    rw [hchips, init8259_chips, hpic, hirqMask, hmask, hclosed i hi, start_closed (by omega)]
  · exact hcs.trans hsegment
  · intro vector handler hhandler
    rw [initIDT_idt, show handlers.initial vector = some handler from hhandler, ← hsegment]

/-! ## A step -/

theorem Chip.Ready.data {c : Chip} {base cascade : BitVec 8} (hready : c.Ready base cascade)
    (val : BitVec 8) : (c.data val).Ready base cascade ∧ (c.data val).imr = val := by
  obtain ⟨hexpects, hbase, hcascade, hicw4⟩ := hready
  have hdata : c.data val = { c with imr := val } := by rw [Chip.data, hexpects]
  rw [hdata]
  exact ⟨⟨hexpects, hbase, hcascade, hicw4⟩, rfl⟩

/-- The bytes that a call writes are those of its mask. -/
theorem getLsbD_written (pic : Pic) (call : Call) {i : ℕ} (hi : i < 8) :
    ((call.run pic).written M_IMR).getLsbD i = (call.run pic).irqMask.getLsbD i ∧
      ((call.run pic).written S_IMR).getLsbD i = (call.run pic).irqMask.getLsbD (8 + i) := by
  have hones : ∀ i < 8, (0xFF : BitVec 32).getLsbD i = true := by decide
  have hmaster : (call.run pic).written M_IMR =
      ((call.run pic).irqMask &&& 0xFF).setWidth 8 := by cases call <;> rfl
  have hslave : (call.run pic).written S_IMR =
      (((call.run pic).irqMask >>> 8) &&& 0xFF).setWidth 8 := by cases call <;> rfl
  rw [hmaster, hslave, BitVec.getLsbD_setWidth, BitVec.getLsbD_setWidth, BitVec.getLsbD_and,
    BitVec.getLsbD_and, BitVec.getLsbD_ushiftRight, hones i hi]
  simp [hi]

theorem callsOf_snoc (ops : List Op) (op : Op) :
    callsOf (ops ++ [op]) = callsOf ops ++ op.toCall.toList := by
  cases h : op.toCall <;> simp [callsOf, h]

theorem handlerOf_snoc (ops : List Op) (op : Op) (vector : BitVec 8) :
    handlerOf handlers (ops ++ [op]) vector =
      op.replace vector (handlerOf handlers ops vector) := by
  simp [handlerOf]

theorem Shows.call {calls : List Call} {pic : Pic} (hshows : Shows calls pic.irqMask)
    {call : Call} (hdevice : call.irqNo < 16 ∧ call.irqNo ≠ 2) :
    Shows (calls ++ [call]) (call.run pic).irqMask := by
  cases call with
  | enable irqNo => exact hshows.enable hdevice.1 hdevice.2
  | disable irqNo => exact hshows.disable hdevice.2

/-- A call that masks or opens a line reaches the controllers and leaves the table. -/
theorem Wired.call (hwired : Wired handlers ops cs s) {call : Call}
    (hdevice : call.irqNo < 16 ∧ call.irqNo ≠ 2) :
    Wired handlers (ops ++ [.call call]) cs (s.call call) := by
  have hmaster := hwired.master.data ((call.run s.pic).written M_IMR)
  have hslave := hwired.slave.data ((call.run s.pic).written S_IMR)
  have hchips : (s.call call).chips =
      ⟨s.chips.master.data ((call.run s.pic).written M_IMR),
        s.chips.slave.data ((call.run s.pic).written S_IMR)⟩ := rfl
  constructor
  · rw [callsOf_snoc]
    exact hwired.shows.call hdevice
  · rw [hchips]
    exact hmaster.1
  · rw [hchips]
    exact hslave.1
  · intro i hi
    rw [hchips]
    exact (congrArg (BitVec.getLsbD · i) hmaster.2).trans (getLsbD_written s.pic call hi).1
  · intro i hi
    rw [hchips]
    exact (congrArg (BitVec.getLsbD · i) hslave.2).trans (getLsbD_written s.pic call hi).2
  · exact hwired.cs_eq
  · intro vector handler hhandler
    rw [handlerOf_snoc] at hhandler
    exact hwired.gates vector handler hhandler

/-- A call that sets a vector leaves the controllers and all other gates. -/
theorem Wired.setVector (hwired : Wired handlers ops cs s) (handler : BitVec 32)
    (interrupt : BitVec 8) :
    Wired handlers (ops ++ [.setVector handler interrupt]) cs
      (Irq.setVector handler interrupt vectorControl s) := by
  constructor
  · rw [callsOf_snoc]
    simp only [Op.toCall, Option.toList_none, List.append_nil]
    exact hwired.shows
  · exact hwired.master
  · exact hwired.slave
  · exact hwired.masterMask
  · exact hwired.slaveMask
  · exact hwired.cs_eq
  · intro vector handler' hhandler
    rw [handlerOf_snoc, Op.replace] at hhandler
    rw [setVector_idt]
    by_cases hsame : interrupt = vector
    · rw [if_pos hsame, Option.some.injEq] at hhandler
      rw [hsame, Function.update_self, hhandler, hwired.cs_eq]
    · rw [if_neg hsame] at hhandler
      rw [Function.update_of_ne (Ne.symm hsame)]
      exact hwired.gates vector handler' hhandler

theorem wired_afterOps (handlers : Handlers) (hmask : s.pic.irqMask = 0xFFFF)
    (hops : OnDevices (callsOf ops)) :
    Wired handlers ops s.cs (afterOps handlers s ops) := by
  induction ops using List.reverseRecOn with
  | nil =>
      rw [afterOps, List.foldl_nil]
      exact wired_booted (s := s) handlers hmask
  | append_singleton ops op ih =>
      rw [callsOf_snoc] at hops
      have hbefore := ih fun c hc => hops c (List.mem_append_left _ hc)
      rw [afterOps, List.foldl_append, List.foldl_cons, List.foldl_nil]
      cases op with
      | call c => exact hbefore.call (hops c (by simp [Op.toCall]))
      | setVector handler interrupt => exact hbefore.setVector handler interrupt

/-! ## The way of a line -/

theorem Chip.Ready.vector {c : Chip} {base cascade : BitVec 8} (hready : c.Ready base cascade)
    (line : ℕ) : c.vector line = some (base + BitVec.ofNat 8 line) := by
  have hmode : ICW4.getLsbD 0 = true := by decide
  rw [Chip.vector, hready.expects, hready.icw4, hready.vectorBase, hmode, if_pos ⟨rfl, rfl⟩]

/-- A line that is open, through the cascade if it is a slave line, is raised with its own
vector. -/
theorem Wired.raise (hwired : Wired handlers ops cs s) {irq : ℕ} (hirq : irq < 16)
    (hne : irq ≠ 2) :
    s.chips.raise irq =
      if lastOn irq (callsOf ops) = some (.enable irq) then
        some (M_VEC + BitVec.ofNat 8 irq)
      else none := by
  have hopen := hwired.shows.open_iff hirq hne
  by_cases hlow : irq < 8
  · have hcascade : ∀ i < 8, i ≠ 2 → (1#8 <<< 2).getLsbD i = false := by decide
    have hmask : Open s.pic.irqMask irq ↔ s.pic.irqMask.getLsbD irq = false :=
      and_iff_left fun h => absurd h (by omega)
    rw [Chips.raise, if_pos hlow, hwired.masterMask irq hlow, hwired.master.cascade,
      hcascade irq hlow hne, hwired.master.vector]
    simp only [← hopen, hmask, and_true]
  · have hplace : (2 : BitVec 8).toNat = 2 := rfl
    have hcascade : (1#8 <<< 2).getLsbD 2 = true := by decide
    have hvectors : ∀ i < 16, 8 ≤ i →
        S_VEC + BitVec.ofNat 8 (i - 8) = M_VEC + BitVec.ofNat 8 i := by decide
    have hline : 8 + (irq - 8) = irq := by omega
    have hslave := hwired.slaveMask (irq - 8) (by omega)
    rw [hline] at hslave
    have hmask : Open s.pic.irqMask irq ↔
        s.pic.irqMask.getLsbD irq = false ∧ s.pic.irqMask.getLsbD 2 = false :=
      and_congr_right fun _ => forall_prop_of_true (by omega)
    rw [Chips.raise, if_neg hlow, hwired.slave.cascade]
    simp only [hplace]
    rw [hslave, hwired.masterMask 2 (by decide), hwired.master.cascade, hcascade,
      hwired.slave.vector, hvectors irq hirq (by omega)]
    simp only [← hopen, hmask, and_true]

theorem deliver_gate {idt : BitVec 8 → BitVec 64} {event : Event} {handler : BitVec 32}
    (hgate : idt event.vector = gate handler cs vectorControl) :
    deliver idt event = .enters ⟨cs, handler⟩ := by
  rw [deliver, enter_gate hgate]

/-! ## The missing gate -/

theorem Op.replace_isSome {vector : BitVec 8} {handler : Option (BitVec 32)} (op : Op)
    (hsome : handler.isSome = true) : (op.replace vector handler).isSome = true := by
  cases op with
  | call c => exact hsome
  | setVector handler' interrupt =>
      rw [Op.replace]
      split
      · rfl
      · exact hsome

theorem handlerOf_isSome (handlers : Handlers) (ops : List Op) {vector : BitVec 8}
    (hne : vector ≠ 11) : (handlerOf handlers ops vector).isSome = true := by
  induction ops using List.reverseRecOn with
  | nil =>
      rw [handlerOf, List.foldl_nil, Handlers.initial, if_neg hne]
      split <;> rfl
  | append_singleton ops op ih =>
      rw [handlerOf_snoc]
      exact op.replace_isSome ih

/-- Only calls that set a vector touch its gate. -/
theorem afterOps_idt_of_none {vector : BitVec 8}
    (hnone : handlerOf handlers ops vector = none) :
    (afterOps handlers s ops).idt vector = s.idt vector := by
  induction ops using List.reverseRecOn with
  | nil =>
      have hinitial : handlers.initial vector = none := hnone
      rw [afterOps, List.foldl_nil, booted, initIDT_idt, hinitial]
      rfl
  | append_singleton ops op ih =>
      rw [handlerOf_snoc] at hnone
      have hbefore : handlerOf handlers ops vector = none := by
        by_contra hsome
        have hafter : (op.replace vector (handlerOf handlers ops vector)).isSome = true :=
          op.replace_isSome (Option.isSome_iff_ne_none.mpr hsome)
        rw [hnone] at hafter
        contradiction
      rw [afterOps, List.foldl_append, List.foldl_cons, List.foldl_nil, ← ih hbefore]
      cases op with
      | call c => rfl
      | setVector handler interrupt =>
          have hother : interrupt ≠ vector := by
            rintro rfl
            simp [Op.replace] at hnone
          exact Function.update_of_ne (Ne.symm hother) _ _

/-! ## Runs -/

/-- A line reaches the processor exactly when the last call on it was `enable_irq`, and
it leads to the handler that was set last for its vector. -/
theorem irq_reaches_handler (handlers : Handlers) {s : System}
    (hmask : s.pic.irqMask = 0xFFFF) {ops : List Op} (hops : OnDevices (callsOf ops))
    {irq : ℕ} (hirq : irq < 16) (hne : irq ≠ 2) :
    ∃ handler, handlerOf handlers ops (M_VEC + BitVec.ofNat 8 irq) = some handler ∧
      (afterOps handlers s ops).interrupt irq =
        if lastOn irq (callsOf ops) = some (.enable irq) then
          some (.enters ⟨s.cs, handler⟩)
        else none := by
  have hvector : ∀ i < 16, M_VEC + BitVec.ofNat 8 i ≠ 11 := by decide
  have hwired := wired_afterOps handlers hmask hops
  obtain ⟨handler, hhandler⟩ :=
    Option.isSome_iff_exists.mp (handlerOf_isSome handlers ops (hvector irq hirq))
  refine ⟨handler, hhandler, ?_⟩
  have hdeliver : deliver (afterOps handlers s ops).idt
      (.interrupt (M_VEC + BitVec.ofNat 8 irq)) = .enters ⟨s.cs, handler⟩ :=
    deliver_gate (hwired.gates _ handler hhandler)
  rw [System.interrupt, hwired.raise hirq hne]
  split
  · rw [Option.map_some, hdeliver]
  · rfl

/-- Line 12 is opened and its handler set; the handler of line 0 is set and taken back. -/
theorem irq_reaches_handler_mouse :
    ∃ handler, handlerOf ⟨fun _ => 0, 1⟩
        [.setVector 9 0x74, .call (.enable 12), .setVector 7 0x68] 0x74 = some handler ∧
      (afterOps ⟨fun _ => 0, 1⟩
          ⟨⟨0xFFFF, fun _ => 0⟩, ⟨⟨.mask, 0, 0, 0, 0, 0⟩, ⟨.mask, 0, 0, 0, 0, 0⟩⟩, fun _ => 0, 8⟩
          [.setVector 9 0x74, .call (.enable 12), .setVector 7 0x68]).interrupt 12 =
        some (.enters ⟨8, handler⟩) := by
  have hops : OnDevices (callsOf
      [.setVector 9 0x74, .call (.enable 12), .setVector 7 0x68]) := by
    simp [OnDevices, callsOf, Op.toCall, Call.irqNo]
  exact irq_reaches_handler ⟨fun _ => 0, 1⟩
    (s := ⟨⟨0xFFFF, fun _ => 0⟩, ⟨⟨.mask, 0, 0, 0, 0, 0⟩, ⟨.mask, 0, 0, 0, 0, 0⟩⟩, fun _ => 0, 8⟩)
    rfl hops (show 12 < 16 by decide) (show 12 ≠ 2 by decide)

/-- Every interrupt and every exception ends in a handler.  It is the one that was set last
for its vector, but for vector 11 as long as none is set: an interrupt then ends in the
handler of exception 13, and the exception in the one of the double fault. -/
theorem event_reaches_handler (handlers : Handlers) {s : System}
    (hmask : s.pic.irqMask = 0xFFFF) (hidt : s.idt 11 = 0) {ops : List Op}
    (hops : OnDevices (callsOf ops)) (event : Event) :
    ∃ handler, handlerOf handlers ops (answering handlers ops event) = some handler ∧
      deliver (afterOps handlers s ops).idt event = .enters ⟨s.cs, handler⟩ := by
  have hwired := wired_afterOps handlers hmask hops
  have hset : ∀ vector, vector ≠ 11 → ∃ handler, handlerOf handlers ops vector = some handler ∧
      enter (afterOps handlers s ops).idt vector = .ok ⟨s.cs, handler⟩ := by
    intro vector hne
    obtain ⟨handler, hhandler⟩ :=
      Option.isSome_iff_exists.mp (handlerOf_isSome handlers ops hne)
    exact ⟨handler, hhandler, enter_gate (hwired.gates vector handler hhandler)⟩
  cases hown : handlerOf handlers ops event.vector with
  | some handler =>
      refine ⟨handler, ?_, deliver_gate (hwired.gates _ handler hown)⟩
      rw [answering, hown, if_pos Option.isSome_some, hown]
  | none =>
      have heleven : event.vector = 11 := by
        by_contra hne
        have hsome := handlerOf_isSome handlers ops hne
        rw [hown] at hsome
        contradiction
      have hempty : enter (afterOps handlers s ops).idt event.vector = .error 13 := by
        apply enter_empty
        rw [afterOps_idt_of_none hown, heleven, hidt]
      have hdouble : event ≠ .exception 8 := by
        rintro rfl
        exact absurd heleven (by decide)
      rw [answering, hown, if_neg (by simp), deliver, hempty]
      cases hcontributory : event.contributory with
      | true =>
          obtain ⟨handler, hhandler, henter⟩ := hset 8 (by decide)
          refine ⟨handler, hhandler, ?_⟩
          simp only [if_neg hdouble, if_true, doubleFault, henter]
      | false =>
          obtain ⟨handler, hhandler, henter⟩ := hset 13 (by decide)
          refine ⟨handler, hhandler, ?_⟩
          simp only [if_neg hdouble, Bool.false_eq_true, if_false, henter]

/-- The missing gate: exception 11 is answered by the handler of the double fault, the one
that was set last. -/
theorem event_reaches_handler_missing :
    ∃ handler, handlerOf ⟨BitVec.ofNat 32, 99⟩
          [.call (.enable 12), .setVector 40 8, .call (.enable 1), .setVector 41 0x69] 8 =
        some handler ∧
      deliver (afterOps ⟨BitVec.ofNat 32, 99⟩
          ⟨⟨0xFFFF, fun _ => 0⟩, ⟨⟨.mask, 0, 0, 0, 0, 0⟩, ⟨.mask, 0, 0, 0, 0, 0⟩⟩, fun _ => 0, 8⟩
          [.call (.enable 12), .setVector 40 8, .call (.enable 1), .setVector 41 0x69]).idt
          (.exception 11) = .enters ⟨8, handler⟩ :=
  event_reaches_handler ⟨BitVec.ofNat 32, 99⟩
    (s := ⟨⟨0xFFFF, fun _ => 0⟩, ⟨⟨.mask, 0, 0, 0, 0, 0⟩, ⟨.mask, 0, 0, 0, 0, 0⟩⟩, fun _ => 0, 8⟩)
    rfl rfl (by simp [OnDevices, callsOf, Op.toCall, Call.irqNo]) (.exception 11)

end Irq
end Janus86
