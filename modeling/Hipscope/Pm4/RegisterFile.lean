import Hipscope.Pm4.Registers

/-! The shader registers while a stream runs. The cache of a stateful builder
agrees with them, so a write it leaves out would change nothing. -/
namespace Hipscope.Pm4

abbrev RegisterFile := UInt32 → UInt32

def writeRegisters (file : RegisterFile) : UInt32 → List UInt32 → RegisterFile
  | _, [] => file
  | first, value :: values => writeRegisters (Function.update file first value) (first + 1) values

/-- The registers after one packet, given by its header and body. -/
def programPacket (file : RegisterFile) (header : UInt32) (body : List UInt32) : RegisterFile :=
  match body with
  | first :: values =>
    if opcode header = Opcode.setShReg then writeRegisters file first values else file
  | [] => file

/-- The packets of a stream as header and body, the way a queue reads it. -/
def rawPackets (dwords : List UInt32) : Except ℕ (List (UInt32 × List UInt32)) :=
  walkDwords id (fun ps _ header body => .ok (ps ++ [(header, body)])) [] dwords

/-- The register files that the dispatches of a stream see. -/
def shownTo : RegisterFile → List (UInt32 × List UInt32) → List RegisterFile
  | _, [] => []
  | file, p :: ps =>
    (if opcode p.1 = Opcode.dispatchDirect then [file] else []) ++
      shownTo (programPacket file p.1 p.2) ps

def isRegisterWrite (p : UInt32 × List UInt32) : Bool := opcode p.1 = Opcode.setShReg

/-- Runs a stream: the registers at every dispatch. -/
def execute (file : RegisterFile) (dwords : List UInt32) : Except ℕ (List RegisterFile) := do
  return shownTo file (← rawPackets dwords)

/-- The packets that do not write registers. -/
def otherPackets (dwords : List UInt32) : Except ℕ (List (UInt32 × List UInt32)) := do
  return (← rawPackets dwords).filter fun p => !isRegisterWrite p

namespace Packet

def raw (p : Packet) : UInt32 × List UInt32 := (p.header, p.body)

def program (file : RegisterFile) (p : Packet) : RegisterFile := programPacket file p.header p.body

/-- The packet leaves the registers alone. -/
def Inert : Packet → Prop
  | setShReg _ _ => False
  | _ => True

theorem Inert.wellFormed {p : Packet} (h : p.Inert) : p.WellFormed := by
  cases p with
  | setShReg first values => exact h.elim
  | _ => trivial

theorem opcode_inert {p : Packet} (h : p.WellFormed) :
    Pm4.opcode p.header = Opcode.setShReg ↔ ¬ p.Inert := by
  rw [(header_fields h).2.2]
  cases p <;> simp [opcode, Inert, Opcode.setShReg, Opcode.dispatchDirect, Opcode.eventWrite,
    Opcode.acquireMem, Opcode.copyData, Opcode.releaseMem, Opcode.writeData, Opcode.waitRegMem]

theorem program_inert {p : Packet} (h : p.Inert) (file : RegisterFile) : p.program file = file := by
  have hop : Pm4.opcode p.header ≠ Opcode.setShReg := fun ho => (opcode_inert h.wellFormed).mp ho h
  unfold program programPacket
  split
  · exact if_neg hop
  · rfl

theorem program_setShReg {first : UInt32} {values : List UInt32} (h : values.length ≤ 16)
    (file : RegisterFile) :
    (setShReg first values).program file = writeRegisters file first values := by
  have hop := (header_fields (p := .setShReg first values) h).2.2
  exact if_pos hop

end Packet

theorem rawPackets_encodeStream {ps : List Packet} (h : ∀ p ∈ ps, p.WellFormed) :
    rawPackets (encodeStream ps) = .ok (ps.map Packet.raw) := by
  have hfold (found : List (UInt32 × List UInt32)) (cursor : ℕ) (ps : List Packet) :
      foldPackets (ε := ℕ) (fun ps _ header body => .ok (ps ++ [(header, body)])) found cursor ps =
        .ok (found ++ ps.map Packet.raw) := by
    induction ps generalizing found cursor with
    | nil => simp [foldPackets]
    | cons p ps ih =>
      rw [foldPackets]
      refine (ih (found ++ [(p.header, p.body)]) _).trans ?_
      simp [Packet.raw]
  exact (walkDwords_encodeStream h).trans (hfold [] 0 ps)

/-- The registers after a list of packets. -/
def programAll (file : RegisterFile) (ps : List Packet) : RegisterFile := ps.foldl Packet.program file

@[simp] theorem programAll_append (file : RegisterFile) (ps qs : List Packet) :
    programAll file (ps ++ qs) = programAll (programAll file ps) qs :=
  List.foldl_append

theorem programAll_inert {ps : List Packet} (h : ∀ p ∈ ps, p.Inert) (file : RegisterFile) :
    programAll file ps = file := by
  induction ps with
  | nil => rfl
  | cons p ps ih =>
    rw [programAll, List.foldl_cons, Packet.program_inert (h p List.mem_cons_self)]
    exact ih fun q hq => h q (List.mem_cons_of_mem _ hq)

/-- What the dispatches of a list of packets see. -/
def shown (file : RegisterFile) (ps : List Packet) : List RegisterFile :=
  shownTo file (ps.map Packet.raw)

theorem shown_cons (file : RegisterFile) (p : Packet) (ps : List Packet) :
    shown file (p :: ps) = (if opcode p.header = Opcode.dispatchDirect then [file] else []) ++
      shown (p.program file) ps := rfl

theorem shown_append (file : RegisterFile) (ps qs : List Packet) :
    shown file (ps ++ qs) = shown file ps ++ shown (programAll file ps) qs := by
  induction ps generalizing file with
  | nil => rfl
  | cons p ps ih =>
    have hrest := ih (p.program file)
    simp only [shown, List.cons_append, List.map_cons, shownTo, List.append_assoc] at hrest ⊢
    exact congrArg _ hrest

theorem execute_encodeStream {ps : List Packet} (h : ∀ p ∈ ps, p.WellFormed) (file : RegisterFile) :
    execute file (encodeStream ps) = .ok (shown file ps) := by
  rw [execute, rawPackets_encodeStream h]
  rfl

/-- The packets of a stream that leave the registers alone. -/
def inertPackets (ps : List Packet) : List (UInt32 × List UInt32) :=
  (ps.map Packet.raw).filter fun p => !isRegisterWrite p

theorem otherPackets_encodeStream {ps : List Packet} (h : ∀ p ∈ ps, p.WellFormed) :
    otherPackets (encodeStream ps) = .ok (inertPackets ps) := by
  rw [otherPackets, rawPackets_encodeStream h]
  rfl

theorem inertPackets_cons (p : Packet) (ps : List Packet) :
    inertPackets (p :: ps) = (if opcode p.header = Opcode.setShReg then [] else [p.raw]) ++
      inertPackets ps := by
  by_cases hop : opcode p.header = Opcode.setShReg <;>
    simp [inertPackets, isRegisterWrite, Packet.raw, hop]

@[simp] theorem inertPackets_append (ps qs : List Packet) :
    inertPackets (ps ++ qs) = inertPackets ps ++ inertPackets qs := by
  simp [inertPackets]

private theorem registerWrite_opcode {p : Packet} (h : RegisterWrite p) :
    opcode p.header = Opcode.setShReg := by
  obtain ⟨first, values, rfl, -, hlen⟩ := h
  exact (Packet.header_fields (p := .setShReg first values) hlen).2.2

/-- Register writes show nothing to a dispatch. -/
theorem shown_registerWrites {ps : List Packet} (h : ∀ p ∈ ps, RegisterWrite p)
    (file : RegisterFile) : shown file ps = [] := by
  induction ps generalizing file with
  | nil => rfl
  | cons p ps ih =>
    have hop : opcode p.raw.1 ≠ Opcode.dispatchDirect := by
      rw [show p.raw.1 = p.header from rfl, registerWrite_opcode (h p List.mem_cons_self)]
      decide
    rw [shown, List.map_cons, shownTo, if_neg hop, List.nil_append]
    exact ih (fun q hq => h q (List.mem_cons_of_mem _ hq)) _

theorem inertPackets_registerWrites {ps : List Packet} (h : ∀ p ∈ ps, RegisterWrite p) :
    inertPackets ps = [] := by
  rw [inertPackets, List.filter_eq_nil_iff]
  intro raw hraw
  obtain ⟨p, hp, rfl⟩ := List.mem_map.mp hraw
  simp [isRegisterWrite, Packet.raw, registerWrite_opcode (h p hp)]

section Elision

/-- Every cached value is the value of its register. -/
def Agrees (registers : RegisterState) (file : RegisterFile) : Prop :=
  ∀ register value, registers register = some value → file register = value

theorem Agrees.update {registers : RegisterState} {file : RegisterFile} (h : Agrees registers file)
    (register value : UInt32) :
    Agrees (Function.update registers register (some value)) (Function.update file register value) := by
  intro r v hr
  by_cases heq : r = register
  · subst heq
    rw [Function.update_self] at hr ⊢
    exact Option.some.inj hr
  · rw [Function.update_of_ne heq] at hr ⊢
    exact h r v hr

theorem writeRegisters_concat (file : RegisterFile) (first : UInt32) (values : List UInt32)
    (value : UInt32) : writeRegisters file first (values ++ [value]) =
      Function.update (writeRegisters file first values) (first + UInt32.ofNat values.length) value := by
  induction values generalizing file first with
  | nil => simp [writeRegisters]
  | cons v values ih =>
    rw [List.cons_append, writeRegisters, ih, writeRegisters, List.length_cons, UInt32.ofNat_add]
    congr 1
    ac_rfl

theorem writeRegisters_of_outside {file : RegisterFile} {first register : UInt32}
    {values : List UInt32} (h : ∀ i < values.length, first + UInt32.ofNat i ≠ register) :
    writeRegisters file first values register = file register := by
  induction values generalizing file first with
  | nil => rfl
  | cons value values ih =>
    rw [writeRegisters, ih, Function.update_of_ne]
    · simpa using (h 0 (by simp)).symm
    · intro i hi
      have hnext := h (i + 1) (by simpa using hi)
      rwa [UInt32.ofNat_add, UInt32.add_comm (UInt32.ofNat i), ← UInt32.add_assoc] at hnext

def writeRuns (file : RegisterFile) (runs : List (UInt32 × List UInt32)) : RegisterFile :=
  runs.foldl (fun file run => writeRegisters file run.1 run.2) file

/-- The open run ends right before the register. -/
def Contiguous (run : Option (UInt32 × List UInt32)) (register : UInt32) : Prop :=
  ∀ r ∈ run, r.1 + UInt32.ofNat r.2.length = register

/-- By induction on the values: the cache agrees with the registers as they are
after the open run, so a value found in it is already there. -/
theorem elideRuns_spec {registers : RegisterState} {register : UInt32}
    {run : Option (UInt32 × List UInt32)} {file : RegisterFile} {values : List UInt32}
    (hrun : Contiguous run register) (h : Agrees registers (writeRuns file run.toList)) :
    writeRuns file (elideRuns registers register run values).2 =
        writeRegisters (writeRuns file run.toList) register values ∧
      Agrees (elideRuns registers register run values).1
        (writeRegisters (writeRuns file run.toList) register values) := by
  induction values generalizing registers register run file with
  | nil => exact ⟨rfl, h⟩
  | cons value values ih =>
    by_cases hcached : registers register = some value
    · have hlive : Function.update (writeRuns file run.toList) register value =
          writeRuns file run.toList := by
        rw [← h register value hcached]
        exact Function.update_eq_self _ _
      simp only [elideRuns, if_pos hcached, writeRegisters, hlive]
      obtain ⟨hfile, hagrees⟩ := @ih registers (register + 1) none (writeRuns file run.toList)
        (by simp [Contiguous]) h
      refine ⟨?_, hagrees⟩
      rw [writeRuns, List.foldl_append]
      exact hfile
    · simp only [elideRuns, if_neg hcached, writeRegisters]
      have hnext := h.update register value
      cases run with
      | none =>
        exact @ih _ (register + 1) (some (register, [value])) file (by simp [Contiguous]) hnext
      | some old =>
        have hfirst : old.1 + UInt32.ofNat old.2.length = register := hrun old rfl
        have hgrown : writeRuns file [(old.1, old.2 ++ [value])] =
            Function.update (writeRuns file [old]) register value := by
          rw [← hfirst]
          exact writeRegisters_concat file old.1 old.2 value
        have hend : Contiguous (some (old.1, old.2 ++ [value])) (register + 1) := by
          intro r hr
          obtain rfl : (old.1, old.2 ++ [value]) = r := by simpa using hr
          rw [List.length_append, UInt32.ofNat_add, ← UInt32.add_assoc, hfirst]
          rfl
        rw [show (some old).toList = [old] from rfl] at hnext ⊢
        rw [← hgrown] at hnext ⊢
        exact @ih _ (register + 1) (some (old.1, old.2 ++ [value])) file hend hnext

/-- The cache grows by registers of the write only. -/
theorem elideRuns_cached {registers : RegisterState} {first : UInt32}
    {run : Option (UInt32 × List UInt32)} {values : List UInt32} {register : UInt32}
    (h : (elideRuns registers first run values).1 register ≠ none) :
    registers register ≠ none ∨ ∃ i < values.length, first + UInt32.ofNat i = register := by
  induction values generalizing registers first run with
  | nil => exact .inl h
  | cons value values ih =>
    have hlater : (∃ i < values.length, first + 1 + UInt32.ofNat i = register) →
        ∃ i < (value :: values).length, first + UInt32.ofNat i = register := by
      rintro ⟨i, hi, rfl⟩
      refine ⟨i + 1, by simpa using hi, ?_⟩
      rw [UInt32.ofNat_add, UInt32.add_comm (UInt32.ofNat i), ← UInt32.add_assoc]
      rfl
    by_cases hcached : registers first = some value
    · simp only [elideRuns, if_pos hcached] at h
      exact (ih h).imp_right hlater
    · simp only [elideRuns, if_neg hcached] at h
      rcases ih h with hr | hr
      · by_cases heq : register = first
        · exact .inr ⟨0, by simp, by simp [heq]⟩
        · rw [Function.update_of_ne heq] at hr
          exact .inl hr
      · exact .inr (hlater hr)

theorem programAll_runs {runs : List (UInt32 × List UInt32)}
    (h : ∀ run ∈ runs, run.2.length ≤ 16) (file : RegisterFile) :
    programAll file (runs.map fun run => .setShReg run.1 run.2) = writeRuns file runs := by
  induction runs generalizing file with
  | nil => rfl
  | cons run runs ih =>
    rw [List.map_cons, programAll, List.foldl_cons,
      Packet.program_setShReg (h run List.mem_cons_self)]
    exact ih (fun r hr => h r (List.mem_cons_of_mem _ hr)) _

/-- What a builder emits for a write does what the write does, and the cache
follows. -/
theorem setRegisters_spec {state : Option RegisterState} {first : UInt32} {values : List UInt32}
    {file : RegisterFile} (hpos : 0 < values.length) (hlen : values.length ≤ 16)
    (h : ∀ registers ∈ state, Agrees registers file) :
    programAll file (setRegisters state first values).2 = writeRegisters file first values ∧
      ∀ registers ∈ (setRegisters state first values).1,
        Agrees registers (writeRegisters file first values) := by
  cases state with
  | none => exact ⟨Packet.program_setShReg hlen file, by simp [setRegisters]⟩
  | some registers =>
    obtain ⟨hfile, hagrees⟩ := @elideRuns_spec registers first none file values
      (by simp [Contiguous]) (h registers rfl)
    refine ⟨?_, ?_⟩
    · rw [setRegisters]
      refine (programAll_runs (fun run hrun => ?_) file).trans hfile
      obtain ⟨_, _, heq, -, hle⟩ := @setRegisters_writes (some registers) first values hpos hlen
        (.setShReg run.1 run.2) (List.mem_map_of_mem hrun)
      cases heq
      exact hle
    · intro r hr
      obtain rfl : (elideRuns registers first none values).1 = r := by simpa [setRegisters] using hr
      exact hagrees

end Elision
end Hipscope.Pm4
