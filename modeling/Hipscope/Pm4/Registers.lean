import Hipscope.Pm4.Packet
import Hipscope.Redline.RecordedGraph

/-! Shader-register writes with elision of values that are already live, and
what both command builders know about a kernel. -/
namespace Hipscope.Pm4
open Redline

/-- The value last written to each register of the stream. -/
abbrev RegisterState := UInt32 → Option UInt32

/-- Runs of consecutive registers whose value changes; `run` is the open one. -/
def elideRuns : RegisterState → UInt32 → Option (UInt32 × List UInt32) → List UInt32 →
    RegisterState × List (UInt32 × List UInt32)
  | registers, _, run, [] => (registers, run.toList)
  | registers, register, run, value :: values =>
    if registers register = some value then
      let rest := elideRuns registers (register + 1) none values
      (rest.1, run.toList ++ rest.2)
    else
      let run := match run with
        | none => (register, [value])
        | some (first, earlier) => (first, earlier ++ [value])
      elideRuns (Function.update registers register (some value)) (register + 1) (some run) values

/-- Registers emitted by one write, with the new state. -/
def setRegisters (state : Option RegisterState) (first : UInt32) (values : List UInt32) :
    Option RegisterState × List Packet :=
  match state with
  | none => (none, [.setShReg first values])
  | some registers =>
    let (registers, changed) := elideRuns registers first none values
    (some registers, changed.map fun run => .setShReg run.1 run.2)

/-- A register write whose length fits the packet header. -/
def RegisterWrite (p : Packet) : Prop :=
  ∃ first values, p = .setShReg first values ∧ 0 < values.length ∧ values.length ≤ 16

theorem RegisterWrite.quiet {p : Packet} (h : RegisterWrite p) : p.Quiet := by
  obtain ⟨first, values, rfl, -, -⟩ := h
  trivial

private theorem elideRuns_length {registers : RegisterState} {register : UInt32}
    {run : Option (UInt32 × List UInt32)} {values : List UInt32} {bound : ℕ}
    (hrun : ∀ r ∈ run, 0 < r.2.length ∧ r.2.length + values.length ≤ bound)
    (hvalues : values.length ≤ bound) :
    ∀ r ∈ (elideRuns registers register run values).2, 0 < r.2.length ∧ r.2.length ≤ bound := by
  induction values generalizing registers register run with
  | nil =>
    intro r hr
    have := hrun r (by simpa [elideRuns] using hr)
    simpa using this
  | cons value values ih =>
    rw [List.length_cons] at hvalues
    intro r hr
    unfold elideRuns at hr
    split at hr
    · rcases List.mem_append.mp hr with hr | hr
      · have := hrun r (by simpa using hr)
        omega
      · exact ih (by simp) (by omega) r hr
    · refine ih ?_ (by omega) r hr
      intro s hs
      cases run with
      | none =>
        obtain rfl : (register, [value]) = s := by simpa using hs
        exact ⟨by simp, by simp only [List.length_cons, List.length_nil]; omega⟩
      | some old =>
        have hold := hrun old rfl
        obtain rfl : (old.1, old.2 ++ [value]) = s := by simpa using hs
        simp only [List.length_append, List.length_cons, List.length_nil] at hold ⊢
        omega

theorem setRegisters_writes {state : Option RegisterState} {first : UInt32} {values : List UInt32}
    (hpos : 0 < values.length) (hlen : values.length ≤ 16) :
    ∀ p ∈ (setRegisters state first values).2, RegisterWrite p := by
  intro p hp
  cases state with
  | none =>
    obtain rfl : p = .setShReg first values := by simpa [setRegisters] using hp
    exact ⟨first, values, rfl, hpos, hlen⟩
  | some registers =>
    simp only [setRegisters, List.mem_map] at hp
    obtain ⟨run, hrun, rfl⟩ := hp
    obtain ⟨h0, h16⟩ := elideRuns_length (by simp) hlen run hrun
    exact ⟨run.1, run.2, rfl, h0, h16⟩

/-- The stream grew by register writes only. -/
def Prepares (before after : List Packet) : Prop :=
  ∃ writes, after = before ++ writes ∧ ∀ p ∈ writes, RegisterWrite p

theorem Prepares.refl (ps : List Packet) : Prepares ps ps := ⟨[], by simp, by simp⟩

theorem Prepares.trans {ps qs rs : List Packet} (h : Prepares ps qs) (h' : Prepares qs rs) :
    Prepares ps rs := by
  obtain ⟨w, rfl, hw⟩ := h
  obtain ⟨w', rfl, hw'⟩ := h'
  refine ⟨w ++ w', by simp, fun p hp => ?_⟩
  exact (List.mem_append.mp hp).elim (hw p) (hw' p)

/-- Program state recovered from the loaded kernel descriptor. -/
structure KernelPm4Metadata where
  codeEntry : ℕ
  computePgmRsrc1 : UInt32
  computePgmRsrc2 : UInt32
  computePgmRsrc3 : UInt32
  kernelCodeProperties : UInt16
  deriving DecidableEq

structure Kernel extends Aql.Kernel where
  pm4Metadata : Option KernelPm4Metadata

def enableSgprPrivateSegmentBuffer : UInt16 := 1
def enableSgprKernargSegmentPtr : UInt16 := 8
def enableWavefrontSize32 : UInt16 := 0x400
def ldsSizeMask : UInt32 := 0x00ff8000
def ldsGranule : ℕ := 512
def ldsBlockLimit : ℕ := 0x1ff

/-- Local memory in allocation granules. -/
def ldsBlocks (bytes : ℕ) : ℕ := (bytes + (ldsGranule - 1)) / ldsGranule

def rsrc2WithLds (rsrc2 : UInt32) (blocks : ℕ) : UInt32 :=
  (rsrc2 &&& ~~~ldsSizeMask) ||| (UInt32.ofNat blocks <<< 15)

end Hipscope.Pm4

/-! Walking a command stream by the lengths in its packet headers. A walk over
encoded packets visits exactly those packets, whatever their payload dwords. -/
namespace Hipscope.Pm4
open Redline

def packetType (header : UInt32) : UInt32 := header >>> 30

def bodyDwords (header : UInt32) : ℕ := ((header >>> 16) &&& 0x3fff).toNat + 1

def opcode (header : UInt32) : UInt32 := (header >>> 8) &&& 0xff

section Walk
variable {σ ε : Type}

/-- A left fold over the packets of a stream. The visitor gets the dword offset,
the header and the body of each; an error names the packet that does not parse.
Every packet takes a dword, so more fuel than dwords is enough. -/
def walk (malformed : ℕ → ε) (visit : σ → ℕ → UInt32 → List UInt32 → Except ε σ) :
    ℕ → σ → ℕ → List UInt32 → Except ε σ
  | 0, state, _, _ | _, state, _, [] => .ok state
  | fuel + 1, state, cursor, header :: rest =>
    if packetType header ≠ 3 then .error (malformed cursor)
    else if rest.length < bodyDwords header then .error (malformed cursor)
    else do
      let state ← visit state cursor header (rest.take (bodyDwords header))
      walk malformed visit fuel state (cursor + (1 + bodyDwords header))
        (rest.drop (bodyDwords header))

def walkDwords (malformed : ℕ → ε) (visit : σ → ℕ → UInt32 → List UInt32 → Except ε σ) (state : σ)
    (dwords : List UInt32) : Except ε σ :=
  walk malformed visit (dwords.length + 1) state 0 dwords

/-- The fold a walk over encoded packets amounts to. -/
def foldPackets (visit : σ → ℕ → UInt32 → List UInt32 → Except ε σ) :
    σ → ℕ → List Packet → Except ε σ
  | state, _, [] => .ok state
  | state, cursor, p :: ps => do
    let state ← visit state cursor p.header p.body
    foldPackets visit state (cursor + p.encode.length) ps

end Walk

namespace Packet

def opcode : Packet → UInt32
  | setShReg _ _ => Opcode.setShReg
  | dispatchDirect _ _ _ _ => Opcode.dispatchDirect
  | csPartialFlush => Opcode.eventWrite
  | acquireMem _ _ _ => Opcode.acquireMem
  | copyTimestamp _ => Opcode.copyData
  | releaseTimestamp _ | releaseMem _ _ => Opcode.releaseMem
  | writeData _ _ => Opcode.writeData
  | waitRegMem _ _ => Opcode.waitRegMem

/-- The body fits the length field of the header. -/
def WellFormed : Packet → Prop
  | setShReg _ values => values.length ≤ 16
  | _ => True

private theorem setShReg_header : ∀ n ≤ 16,
    packetType (packet3 Opcode.setShReg (1 + UInt32.ofNat n) true) = 3 ∧
      bodyDwords (packet3 Opcode.setShReg (1 + UInt32.ofNat n) true) = n + 1 ∧
      Pm4.opcode (packet3 Opcode.setShReg (1 + UInt32.ofNat n) true) = Opcode.setShReg := by
  decide

/-- What a walk reads off the header of a packet. -/
theorem header_fields {p : Packet} (h : p.WellFormed) :
    packetType p.header = 3 ∧ bodyDwords p.header = p.body.length ∧ Pm4.opcode p.header = p.opcode := by
  cases p with
  | setShReg first values => exact setShReg_header values.length h
  | _ =>
    simp only [header, opcode, body, List.length_cons, List.length_nil]
    decide

theorem opcode_dispatch (p : Packet) : p.opcode = Opcode.dispatchDirect ↔ p.dispatch?.isSome := by
  cases p <;> simp [opcode, dispatch?, Opcode.setShReg, Opcode.dispatchDirect, Opcode.eventWrite,
    Opcode.acquireMem, Opcode.copyData, Opcode.releaseMem, Opcode.writeData, Opcode.waitRegMem]

@[simp] theorem encode_length (p : Packet) : p.encode.length = 1 + p.body.length := by
  rw [encode, List.length_cons, Nat.add_comm]

end Packet

@[simp] theorem encodeStream_nil : encodeStream [] = [] := rfl

@[simp] theorem encodeStream_cons (p : Packet) (ps : List Packet) :
    encodeStream (p :: ps) = p.encode ++ encodeStream ps :=
  List.flatMap_cons

@[simp] theorem encodeStream_append (ps qs : List Packet) :
    encodeStream (ps ++ qs) = encodeStream ps ++ encodeStream qs :=
  List.flatMap_append

section Walk
variable {σ ε : Type}

/-- The walk follows the packets: by induction on them, each header gives the
length of its own body, so no payload dword is taken for a header. -/
theorem walk_encodeStream {malformed : ℕ → ε} {visit : σ → ℕ → UInt32 → List UInt32 → Except ε σ}
    {fuel : ℕ} {state : σ} {cursor : ℕ} {ps : List Packet} (hps : ∀ p ∈ ps, p.WellFormed)
    (hfuel : (encodeStream ps).length < fuel) :
    walk malformed visit fuel state cursor (encodeStream ps) = foldPackets visit state cursor ps := by
  induction ps generalizing fuel state cursor with
  | nil => cases fuel <;> rfl
  | cons p ps ih =>
    obtain ⟨htype, hbody, -⟩ := Packet.header_fields (hps p List.mem_cons_self)
    rw [encodeStream_cons, List.length_append, Packet.encode_length] at hfuel
    obtain ⟨fuel, rfl⟩ : ∃ n, fuel = n + 1 := ⟨fuel - 1, by omega⟩
    rw [encodeStream_cons, Packet.encode, List.cons_append, walk, foldPackets,
      if_neg (not_not.mpr htype), hbody, if_neg (by simp), List.take_left, List.drop_left,
      Packet.encode_length]
    refine bind_congr fun state => ?_
    exact ih (fun q hq => hps q (List.mem_cons_of_mem _ hq)) (by omega)

theorem walkDwords_encodeStream {malformed : ℕ → ε}
    {visit : σ → ℕ → UInt32 → List UInt32 → Except ε σ} {state : σ} {ps : List Packet}
    (hps : ∀ p ∈ ps, p.WellFormed) :
    walkDwords malformed visit state (encodeStream ps) = foldPackets visit state 0 ps :=
  walk_encodeStream hps (Nat.lt_succ_self _)

end Walk
end Hipscope.Pm4
