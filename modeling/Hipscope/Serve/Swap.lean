import Hipscope.Serve.Sessions

/-! Where a swapped-out session's snapshot lives: host memory up to a budget,
then scratch files. A file that was not written completely does not parse. -/
namespace Hipscope.Serve

inductive Entry (S : Type) where
  | host (snap : S)
  | disk (bytes : ℕ)
  deriving DecidableEq

/-- Outcomes of the file operations of one store call. -/
structure FileIo where
  read : Bool
  write : Bool
  torn : Bool
  unlink : Bool
  deriving DecidableEq, Repr

/-- Snapshots by session; `files` holds what each scratch file parses to. -/
structure SwapStore (S : Type) where
  hostBudget : ℕ
  hostUsed : ℕ
  entries : ℕ → Option (Entry S)
  files : ℕ → Option (Option S)

namespace SwapStore
variable {S : Type} (payloadLen encodedLen : S → ℕ)

def new (hostBudget : ℕ) : SwapStore S := ⟨hostBudget, 0, fun _ => none, fun _ => none⟩

def removeFile (store : SwapStore S) (io : FileIo) (key : ℕ) : SwapStore S :=
  if io.unlink then { store with files := Function.update store.files key none } else store

def dropKey (store : SwapStore S) (io : FileIo) (key : ℕ) : SwapStore S :=
  let rest := { store with entries := Function.update store.entries key none }
  match store.entries key with
  | some (.host snap) => { rest with hostUsed := store.hostUsed - payloadLen snap }
  | some (.disk _) => rest.removeFile io key
  | none => rest

/-- In host memory if it fits the budget, else on disk. -/
def put (store : SwapStore S) (io : FileIo) (key : ℕ) (snap : S) : SwapStore S × Bool :=
  let store := store.dropKey payloadLen io key
  let bytes := payloadLen snap
  if store.hostUsed + bytes ≤ store.hostBudget then
    ({ store with
        hostUsed := store.hostUsed + bytes
        entries := Function.update store.entries key (some (.host snap)) }, true)
  else if io.write then
    ({ store with
        files := Function.update store.files key (some (some snap))
        entries := Function.update store.entries key (some (.disk (encodedLen snap))) }, true)
  else if io.torn then
    ({ store with files := Function.update store.files key (some none) }, false)
  else (store, false)

/-- Remove and return a snapshot; the key does not survive. -/
def take (store : SwapStore S) (io : FileIo) (key : ℕ) : SwapStore S × Option S :=
  let rest := { store with entries := Function.update store.entries key none }
  match store.entries key with
  | none => (rest, none)
  | some (.host snap) => ({ rest with hostUsed := store.hostUsed - payloadLen snap }, some snap)
  | some (.disk _) =>
    match if io.read then store.files key else none with
    | none => (rest, none)
    | some contents => (rest.removeFile io key, contents)

/-- The manager's `park`. -/
def park (store : SwapStore S) (io : FileIo) (key : ℕ) (snap : S) : SwapStore S × Bool :=
  store.put payloadLen encodedLen io key snap

/-- The manager's `unpark`: a failure drops the key as well. -/
def unpark (store : SwapStore S) (io : FileIo) (key : ℕ) : SwapStore S × Option S :=
  match store.take payloadLen io key with
  | (store, some snap) => (store, some snap)
  | (store, none) => (store.dropKey payloadLen io key, none)

/-- The snapshot a key stands for. -/
def lookup (store : SwapStore S) (key : ℕ) : Option S :=
  match store.entries key with
  | some (.host snap) => some snap
  | some (.disk _) => (store.files key).join
  | none => none

variable {payloadLen encodedLen} {store : SwapStore S} {io : FileIo} {key : ℕ}

private theorem lookup_congr {store' : SwapStore S} {other : ℕ}
    (hentries : store'.entries other = store.entries other)
    (hfiles : store'.files other = store.files other) : store'.lookup other = store.lookup other := by
  simp [lookup, hentries, hfiles]

private theorem removeFile_other {other : ℕ} (h : other ≠ key) :
    (store.removeFile io key).entries = store.entries ∧
      (store.removeFile io key).files other = store.files other := by
  unfold removeFile
  split
  · exact ⟨rfl, Function.update_of_ne h _ _⟩
  · exact ⟨rfl, rfl⟩

private theorem dropKey_other (payloadLen : S → ℕ) (store : SwapStore S) (io : FileIo) {key other : ℕ}
    (h : other ≠ key) : (store.dropKey payloadLen io key).entries other = store.entries other ∧
      (store.dropKey payloadLen io key).files other = store.files other := by
  unfold dropKey
  split
  · exact ⟨Function.update_of_ne h _ _, rfl⟩
  · refine ⟨?_, (removeFile_other h).2⟩
    rw [(removeFile_other h).1]
    exact Function.update_of_ne h _ _
  · exact ⟨Function.update_of_ne h _ _, rfl⟩

/-- A parked snapshot is what its key stands for, in whichever tier. -/
theorem park_lookup {snap : S} {store' : SwapStore S}
    (h : store.park payloadLen encodedLen io key snap = (store', true)) :
    store'.lookup key = some snap := by
  unfold park put at h
  dsimp only at h
  split at h
  · cases h
    simp [lookup]
  split at h
  · cases h
    simp [lookup]
  split at h <;> cases h

theorem park_lookup_other (payloadLen encodedLen : S → ℕ) (store : SwapStore S) (io : FileIo)
    (snap : S) {key other : ℕ} (h : other ≠ key) :
    (store.park payloadLen encodedLen io key snap).1.lookup other = store.lookup other := by
  obtain ⟨hentries, hfiles⟩ := dropKey_other payloadLen store io h
  unfold park put
  dsimp only
  split
  · exact lookup_congr ((Function.update_of_ne h _ _).trans hentries) hfiles
  split
  · exact lookup_congr ((Function.update_of_ne h _ _).trans hentries)
      ((Function.update_of_ne h _ _).trans hfiles)
  split
  · exact lookup_congr hentries ((Function.update_of_ne h _ _).trans hfiles)
  · exact lookup_congr hentries hfiles

private theorem take_other (payloadLen : S → ℕ) (store : SwapStore S) (io : FileIo) {key other : ℕ}
    (h : other ≠ key) : (store.take payloadLen io key).1.entries other = store.entries other ∧
      (store.take payloadLen io key).1.files other = store.files other := by
  unfold take
  split
  · exact ⟨Function.update_of_ne h _ _, rfl⟩
  · exact ⟨Function.update_of_ne h _ _, rfl⟩
  · split
    · exact ⟨Function.update_of_ne h _ _, rfl⟩
    · refine ⟨?_, (removeFile_other h).2⟩
      rw [(removeFile_other h).1]
      exact Function.update_of_ne h _ _

/-- Only what the key stands for is ever handed out. -/
theorem unpark_lookup {snap : S} {store' : SwapStore S}
    (h : store.unpark payloadLen io key = (store', some snap)) : store.lookup key = some snap := by
  unfold unpark at h
  split at h
  · rename_i rest found htake
    cases h
    unfold take at htake
    split at htake
    · cases htake
    · rename_i hentry
      cases htake
      simp [lookup, hentry]
    · rename_i hentry
      split at htake
      · cases htake
      · rename_i contents hfile
        split at hfile
        · rw [Prod.mk.injEq] at htake
          simp [lookup, hentry, hfile, htake.2]
        · cases hfile
  · cases h

theorem unpark_lookup_other (payloadLen : S → ℕ) (store : SwapStore S) (io : FileIo) {key other : ℕ}
    (h : other ≠ key) : (store.unpark payloadLen io key).1.lookup other = store.lookup other := by
  obtain ⟨hentries, hfiles⟩ := take_other payloadLen store io h
  unfold unpark
  split
  · rename_i rest found htake
    rw [htake] at hentries hfiles
    exact lookup_congr hentries hfiles
  · rename_i rest htake
    rw [htake] at hentries hfiles
    obtain ⟨hentries', hfiles'⟩ := dropKey_other payloadLen rest io h
    exact lookup_congr (hentries'.trans hentries) (hfiles'.trans hfiles)

end SwapStore
end Hipscope.Serve
