import Hipscope.Queue.Before

/-! Type-3 packets of a compute command stream: their dwords, and what a queue
does with them. -/
namespace Hipscope.Pm4
open Queue

def packet3 (opcode bodyDwords : UInt32) (compute : Bool) : UInt32 :=
  ((3 : UInt32) <<< 30) ||| ((bodyDwords - 1) <<< 16) ||| (opcode <<< 8) |||
    (if compute then (1 : UInt32) <<< 1 else 0)

namespace Opcode

def setShReg : UInt32 := 0x76
def dispatchDirect : UInt32 := 0x15
def writeData : UInt32 := 0x37
def copyData : UInt32 := 0x40
def releaseMem : UInt32 := 0x49
def eventWrite : UInt32 := 0x46
def acquireMem : UInt32 := 0x58
def waitRegMem : UInt32 := 0x3c

end Opcode

def copyDataTimestampToMemory64 : UInt32 :=
  (9 : UInt32) ||| ((5 : UInt32) <<< 8) ||| ((1 : UInt32) <<< 16) ||| ((1 : UInt32) <<< 20)
def bottomOfPipeTsEvent : UInt32 := (40 : UInt32) ||| ((5 : UInt32) <<< 8)
def timestampAfterWriteConfirm : UInt32 := ((3 : UInt32) <<< 24) ||| ((3 : UInt32) <<< 29)
def value32AfterWriteConfirm : UInt32 := ((3 : UInt32) <<< 24) ||| ((1 : UInt32) <<< 29)
def memoryWriteConfirmed : UInt32 := ((5 : UInt32) <<< 8) ||| ((1 : UInt32) <<< 20)
def memorySpaceEqual : UInt32 := ((1 : UInt32) <<< 4) ||| 3

/-- The packets the builders emit. -/
inductive Packet where
  | setShReg (first : UInt32) (values : List UInt32)
  | dispatchDirect (x y z initiator : UInt32)
  | csPartialFlush
  | acquireMem (sizeHigh pollInterval gcrCntl : UInt32)
  | copyTimestamp (address : ℕ)
  | releaseTimestamp (address : ℕ)
  | releaseMem (address : ℕ) (value : UInt32)
  | writeData (address : ℕ) (value : UInt32)
  | waitRegMem (address : ℕ) (value : UInt32)
  deriving DecidableEq, Repr

def lowDword (address : ℕ) : UInt32 := UInt32.ofNat address
def highDword (address : ℕ) : UInt32 := UInt32.ofNat (address >>> 32)

namespace Packet

/-- The dwords after the header. -/
def body : Packet → List UInt32
  | setShReg first values => first :: values
  | dispatchDirect x y z initiator => [x, y, z, initiator]
  | csPartialFlush => [0x407]
  | acquireMem sizeHigh pollInterval gcrCntl => [0, 0xffffffff, sizeHigh, 0, 0, pollInterval, gcrCntl]
  | copyTimestamp address =>
    [copyDataTimestampToMemory64, 0, 0, lowDword address, highDword address]
  | releaseTimestamp address =>
    [bottomOfPipeTsEvent, timestampAfterWriteConfirm, lowDword address, highDword address, 0, 0, 0]
  | releaseMem address value =>
    [bottomOfPipeTsEvent, value32AfterWriteConfirm, lowDword address, highDword address, value, 0, 0]
  | writeData address value =>
    [memoryWriteConfirmed, lowDword address, highDword address, value]
  | waitRegMem address value =>
    [memorySpaceEqual, lowDword address, highDword address, value, 0xffffffff, 4]

def header : Packet → UInt32
  | setShReg _ values => packet3 Opcode.setShReg (1 + UInt32.ofNat values.length) true
  | dispatchDirect _ _ _ _ => packet3 Opcode.dispatchDirect 4 true
  | csPartialFlush => packet3 Opcode.eventWrite 1 false
  | acquireMem _ _ _ => packet3 Opcode.acquireMem 7 false
  | copyTimestamp _ => packet3 Opcode.copyData 5 false
  | releaseTimestamp _ => packet3 Opcode.releaseMem 7 false
  | releaseMem _ _ => packet3 Opcode.releaseMem 7 false
  | writeData _ _ => packet3 Opcode.writeData 4 false
  | waitRegMem _ _ => packet3 Opcode.waitRegMem 6 false

def encode (p : Packet) : List UInt32 := p.header :: p.body

/-- The dimension dwords of a dispatch. -/
def dispatch? : Packet → Option (List UInt32)
  | dispatchDirect x y z _ => some [x, y, z]
  | _ => none

/-- The memory word a packet writes for other packets to wait on. -/
def write? : Packet → Option (ℕ × UInt32)
  | releaseMem address value | writeData address value => some (address, value)
  | _ => none

/-- What the packet does on its queue. Register writes, cache acquires and
timestamps neither start work nor wait for any. -/
def cmd {S : Type} (word : ℕ → S) : Packet → Cmd S UInt32
  | dispatchDirect _ _ _ _ => .launch none
  | csPartialFlush => .drain
  | releaseMem address value => .release (word address) value
  | writeData address value => .store (word address) value
  | waitRegMem address value => .await (word address) value
  | setShReg _ _ | acquireMem _ _ _ | copyTimestamp _ | releaseTimestamp _ => .nop

/-- A packet that only prepares later ones: it has no effect on the queue. -/
def Quiet : Packet → Prop
  | setShReg _ _ | acquireMem _ _ _ | copyTimestamp _ | releaseTimestamp _ => True
  | _ => False

theorem cmd_write {S : Type} (word : ℕ → S) (p : Packet) :
    (p.cmd word).write = p.write?.map fun w => (word w.1, w.2) := by
  cases p <;> rfl

end Packet

def encodeStream (packets : List Packet) : List UInt32 := packets.flatMap Packet.encode

/-- The dispatches of a stream, in stream order. -/
def dispatches (packets : List Packet) : List (List UInt32) := packets.filterMap Packet.dispatch?

@[simp] theorem dispatches_append (ps qs : List Packet) :
    dispatches (ps ++ qs) = dispatches ps ++ dispatches qs :=
  List.filterMap_append

/-- The words a stream writes, in stream order. -/
def wordWrites (packets : List Packet) : List (ℕ × UInt32) := packets.filterMap Packet.write?

@[simp] theorem wordWrites_append (ps qs : List Packet) :
    wordWrites (ps ++ qs) = wordWrites ps ++ wordWrites qs :=
  List.filterMap_append

theorem wordWrites_quiet {ps : List Packet} (h : ∀ p ∈ ps, p.Quiet) : wordWrites ps = [] := by
  rw [wordWrites, List.filterMap_eq_nil_iff]
  intro p hp
  cases p with
  | releaseMem | writeData => exact absurd (h _ hp) (by simp [Packet.Quiet])
  | _ => rfl

theorem dispatches_quiet {ps : List Packet} (h : ∀ p ∈ ps, p.Quiet) : dispatches ps = [] := by
  rw [dispatches, List.filterMap_eq_nil_iff]
  intro p hp
  cases p with
  | dispatchDirect => exact absurd (h _ hp) (by simp [Packet.Quiet])
  | _ => rfl

section Log
variable {Q T S : Type}

/-- The commands of a stream on one queue. Dispatches take their names in
order, everything else is anonymous. -/
def streamLog (queue : Q) (word : ℕ → S) :
    List T → List Packet → List (Entry Q (Option T) S UInt32)
  | _, [] => []
  | names, p :: ps =>
    if p.dispatch?.isSome then
      ⟨queue, names.head?, p.cmd word⟩ :: streamLog queue word names.tail ps
    else ⟨queue, none, p.cmd word⟩ :: streamLog queue word names ps

variable {queue : Q} {word : ℕ → S}

theorem streamLog_append {names names' : List T} {ps qs : List Packet}
    (h : (dispatches ps).length = names.length) :
    streamLog queue word (names ++ names') (ps ++ qs) =
      streamLog queue word names ps ++ streamLog queue word names' qs := by
  induction ps generalizing names with
  | nil =>
    obtain rfl : names = [] := by simpa [dispatches] using h.symm
    rfl
  | cons p ps ih =>
    rw [List.cons_append, streamLog, streamLog]
    cases hp : p.dispatch? with
    | none =>
      simp only [dispatches, List.filterMap_cons, hp] at h
      simp [ih h]
    | some d =>
      simp only [dispatches, List.filterMap_cons, hp, List.length_cons] at h
      obtain ⟨n, names, rfl⟩ : ∃ n ns, names = n :: ns := by
        cases names with
        | nil => simp at h
        | cons n ns => exact ⟨n, ns, rfl⟩
      simp only [List.length_cons, Nat.add_right_cancel_iff] at h
      simp [ih h]

/-- A stream without dispatches consumes no name. -/
theorem streamLog_anonymous {names : List T} {ps : List Packet} (h : dispatches ps = []) :
    streamLog queue word names ps = ps.map fun p => ⟨queue, none, p.cmd word⟩ := by
  induction ps with
  | nil => rfl
  | cons p ps ih =>
    simp only [dispatches, List.filterMap_eq_nil_iff, List.mem_cons, forall_eq_or_imp] at h
    simp only [streamLog, h.1, Option.isSome_none, Bool.false_eq_true, if_false, List.map_cons]
    rw [ih (List.filterMap_eq_nil_iff.mpr h.2)]

/-- The named commands of a stream with one name for every dispatch. -/
theorem streamLog_tags {names : List T} {ps : List Packet}
    (h : (dispatches ps).length = names.length) :
    (streamLog queue word names ps).filterMap (fun e => e.tag) = names := by
  induction ps generalizing names with
  | nil =>
    obtain rfl : names = [] := by simpa [dispatches] using h.symm
    rfl
  | cons p ps ih =>
    rw [streamLog]
    cases hp : p.dispatch? with
    | none =>
      simp only [dispatches, List.filterMap_cons, hp] at h
      simpa using ih h
    | some d =>
      simp only [dispatches, List.filterMap_cons, hp, List.length_cons] at h
      cases names with
      | nil => simp at h
      | cons n ns =>
        simp only [List.length_cons, Nat.add_right_cancel_iff] at h
        simpa using ih h

theorem streamLog_cmds (queue : Q) (word : ℕ → S) (names : List T) (ps : List Packet) :
    (streamLog queue word names ps).map (fun e => e.cmd) = ps.map fun p => p.cmd word := by
  induction ps generalizing names with
  | nil => rfl
  | cons p ps ih =>
    unfold streamLog
    split <;> simp [ih]

theorem streamLog_writes {names : List T} {ps : List Packet} :
    writes (streamLog queue word names ps) = (wordWrites ps).map fun w => (word w.1, w.2) := by
  have h := congrArg (List.filterMap Cmd.write) (streamLog_cmds queue word names ps)
  rw [List.filterMap_map, List.filterMap_map] at h
  rw [writes, wordWrites, List.map_filterMap]
  refine h.trans (List.filterMap_congr fun p _ => ?_)
  exact p.cmd_write word

/-- The command of a named dispatch. -/
def jobEntry (queue : Q) (name : T) : Entry Q (Option T) S UInt32 := ⟨queue, some name, .launch none⟩

/-- Packets without a dispatch, as commands. -/
def plainLog (queue : Q) (word : ℕ → S) (ps : List Packet) : List (Entry Q (Option T) S UInt32) :=
  ps.map fun p => ⟨queue, none, p.cmd word⟩

theorem streamLog_dispatch {name : T} {names : List T} {step rest : List Packet}
    {x y z initiator : UInt32} (h : dispatches step = []) :
    streamLog queue word (name :: names) (step ++ .dispatchDirect x y z initiator :: rest) =
      plainLog queue word step ++ jobEntry queue name :: streamLog queue word names rest := by
  have happ : streamLog queue word ([] ++ name :: names)
      (step ++ .dispatchDirect x y z initiator :: rest) = _ := streamLog_append (by simp [h])
  rw [List.nil_append] at happ
  rw [happ, streamLog_anonymous h]
  rfl

/-- Every name has its dispatch in the log, in order. -/
theorem jobs_sublist {names : List T} {ps : List Packet}
    (h : (dispatches ps).length = names.length) :
    (names.map (jobEntry queue)).Sublist (streamLog queue word names ps) := by
  induction ps generalizing names with
  | nil =>
    obtain rfl : names = [] := by simpa [dispatches] using h.symm
    exact List.Sublist.slnil
  | cons p ps ih =>
    rw [streamLog]
    cases hp : p.dispatch? with
    | none =>
      simp only [dispatches, List.filterMap_cons, hp] at h
      simpa using (ih h).cons _
    | some d =>
      simp only [dispatches, List.filterMap_cons, hp, List.length_cons] at h
      cases names with
      | nil => simp at h
      | cons n ns =>
        simp only [List.length_cons, Nat.add_right_cancel_iff] at h
        cases p with
        | dispatchDirect => simpa [jobEntry, Packet.cmd] using (ih h).cons_cons (jobEntry queue n)
        | _ => simp [Packet.dispatch?] at hp

end Log
end Hipscope.Pm4
