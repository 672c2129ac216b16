import Mathlib.Data.UInt
import Mathlib.Data.List.Basic

/-! The records the client and its daemon exchange, and how the client reads them. -/
namespace Hipscope.Client

inductive Number where
  | posInt (n : UInt64)
  | negInt (n : Int64)
  | float (bits : UInt64)
  deriving DecidableEq

/-- A member of a record; what is nested deeper is only compared, as its canonical text. -/
inductive Field where
  | null
  | bool (b : Bool)
  | number (n : Number)
  | string (s : String)
  | nested (text : String)
  deriving DecidableEq

/-- One line. An object lists its members in the order of their keys. -/
inductive Value where
  | object (members : List (String × Field))
  | other (field : Field)
  deriving DecidableEq

namespace Field

def asStr : Field → Option String
  | string s => some s
  | _ => none

def asBool : Field → Option Bool
  | bool b => some b
  | _ => none

def asU64 : Field → Option UInt64
  | number (.posInt n) => some n
  | _ => none

def asI64 : Field → Option Int64
  | number (.posInt n) => if n < 0x8000000000000000 then some n.toInt64 else none
  | number (.negInt n) => some n
  | _ => none

end Field

namespace Value

def get (value : Value) (key : String) : Option Field :=
  match value with
  | object members => members.lookup key
  | other _ => none

def type (value : Value) : Option String := (value.get "type").bind Field.asStr

def finishReason (value : Value) : Option String := (value.get "finish_reason").bind Field.asStr

/-- Set a member; keys stay in order. -/
def setMember (key : String) (field : Field) : List (String × Field) → List (String × Field)
  | [] => [(key, field)]
  | (k, f) :: rest =>
    if k = key then (key, field) :: rest
    else if key < k then (key, field) :: (k, f) :: rest
    else (k, f) :: setMember key field rest

def insert (value : Value) (key : String) (field : Field) : Value :=
  match value with
  | object members => object (setMember key field members)
  | other field => other field

theorem lookup_setMember {key other : String} (hne : other ≠ key) (field : Field) (members : List (String × Field)) :
    (setMember key field members).lookup other = members.lookup other := by
  induction members with
  | nil => simp [setMember, List.lookup_cons, beq_false_of_ne hne]
  | cons member rest ih =>
    obtain ⟨k, f⟩ := member
    rw [setMember]
    split_ifs with hkey hlt
    · subst hkey
      simp [List.lookup_cons, beq_false_of_ne hne]
    · simp [List.lookup_cons, beq_false_of_ne hne]
    · simp [List.lookup_cons, ih]

theorem get_insert {key other : String} (hne : other ≠ key) (value : Value) (field : Field) :
    (value.insert key field).get other = value.get other := by
  cases value with
  | object members => exact lookup_setMember hne field members
  | other field => rfl

end Value

structure TypedDaemonError where
  message : String
  errorClass : String
  retryable : Bool
  rolledBack : Bool
  attemptId : UInt64
  id : Option String
  deriving DecidableEq

inductive ClientError where
  | io (reason : String)
  | closed (status : String)
  | protocol (reason : String)
  | daemon (error : TypedDaemonError)
  | cancelled
  | other (reason : String)
  deriving DecidableEq

/-- Numbers only: decimal strings are not coerced. -/
def parseAttemptId (value : Option Field) : Option UInt64 :=
  value.bind fun value =>
    match value.asU64 with
    | some n => some n
    | none =>
      match value.asI64 with
      | some n => if 0 ≤ n then some n.toUInt64 else none
      | none => none

/-- Missing and malformed ids are told apart. -/
def requireAttemptId (value : Option Field) : Except String UInt64 :=
  match value with
  | none => .error "missing attempt_id"
  | some v =>
    match parseAttemptId (some v) with
    | some n => .ok n
    | none => .error "malformed attempt_id"

abbrev Key := String × UInt64

inductive LifecycleRoute where
  | pending (key : Key)
  | control
  | drop
  deriving DecidableEq

def lifecycleTypes : List String :=
  ["gen_start", "token", "reasoning", "tool_calls", "committed", "commit_ready", "aborted", "done", "error"]

/-- The id of a record, unless it is empty. -/
def Value.id (value : Value) : Option String :=
  ((value.get "id").bind Field.asStr).filter fun s => s ≠ ""

def routeLifecycleEvent (type : String) (value : Value) : LifecycleRoute :=
  match value.id, parseAttemptId (value.get "attempt_id") with
  | some id, some attempt => .pending (id, attempt)
  | _, _ => if type = "error" then .control else .drop

/-- Where the dispatch thread sends a line. -/
def route (value : Value) : LifecycleRoute :=
  let type := value.type.getD ""
  if type ∈ lifecycleTypes then routeLifecycleEvent type value else .control

def errorMessage (value : Value) : String :=
  ((value.get "message").bind Field.asStr).getD "unknown daemon error"

def daemonErrorFromValue (value : Value) : ClientError :=
  let message := errorMessage value
  match (value.get "class").bind Field.asStr, (value.get "retryable").bind Field.asBool,
      (value.get "rolled_back").bind Field.asBool, parseAttemptId (value.get "attempt_id") with
  | some errorClass, some retryable, some rolledBack, some attemptId =>
    .daemon ⟨message, errorClass, retryable, rolledBack, attemptId, (value.get "id").bind Field.asStr⟩
  | _, _, _, _ => .protocol message

/-- An event that is not of the active request is an error. -/
def rejectStaleLifecycleEvent (value : Value) (key : Key) : Option ClientError :=
  match value.type with
  | none => none
  | some ty =>
    if ty ∈ lifecycleTypes then
      let requestId := key.1
      let active := key.2
      match (value.get "id").bind Field.asStr with
      | none => some (.protocol s!"missing id on {ty} event (expected={requestId})")
      | some id =>
        if id = "" then some (.protocol s!"empty id on {ty} event (expected={requestId})")
        else if id ≠ requestId then
          some (.protocol s!"stale id event: expected={requestId} got={id} type={ty}")
        else
          match value.get "attempt_id" with
          | none => some (.protocol s!"missing attempt_id on {ty} event (active={active})")
          | some raw =>
            match parseAttemptId (some raw) with
            | none => some (.protocol s!"malformed attempt_id on {ty} event (active={active})")
            | some got =>
              if got ≠ active then
                some (.protocol s!"stale attempt event: active={active} got={got} type={ty}")
              else none
    else none

/-- The final record must be the staged one but for its type. -/
def committedDonePayloadMismatch (stagedCommitReady done : Value) : Option ClientError :=
  if stagedCommitReady.insert "type" (.string "done") = done.insert "type" (.string "done") then none
  else some (.protocol "committed done payload diverges from staged commit_ready")

/-- A routed event carries a lifecycle type and exactly its key. -/
theorem route_pending {value : Value} {key : Key} (h : route value = .pending key) :
    (∃ type ∈ lifecycleTypes, value.type = some type) ∧ value.id = some key.1 ∧
      parseAttemptId (value.get "attempt_id") = some key.2 := by
  rw [route] at h
  split_ifs at h with hlife
  refine ⟨?_, ?_⟩
  · cases htype : value.type with
    | none =>
      rw [htype] at hlife
      exact absurd hlife (by decide)
    | some type =>
      rw [htype] at hlife
      exact ⟨type, hlife, rfl⟩
  · rw [routeLifecycleEvent] at h
    split at h
    · next id attempt hid hattempt =>
      cases h
      exact ⟨hid, hattempt⟩
    · split_ifs at h

end Hipscope.Client
