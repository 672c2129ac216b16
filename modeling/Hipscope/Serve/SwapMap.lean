import Hipscope.Machine.Runs
import Hipscope.Serve.Swap
import Hipscope.Swap.Snapshot

/-! The swap store as a map from sessions to snapshots, over runs with arbitrary
file failures. -/
namespace Hipscope.Serve
open Machine

inductive SwapCall (S : Type) where
  | park (io : FileIo) (key : ℕ) (snap : S)
  | unpark (io : FileIo) (key : ℕ)
  | forget (io : FileIo) (key : ℕ)

inductive SwapEvent (S : Type) where
  | parked (key : ℕ) (snap : S) (ok : Bool)
  | unparked (readable : Bool) (key : ℕ) (found : Option S)
  | forgot (key : ℕ)

/-- The map a caller sees: what was last parked and not taken since. A snapshot is only withheld
when its file could not be read. -/
def swapMap (S : Type) : Monitor (ℕ → Option S) (SwapEvent S) where
  track parked
    | .parked key snap ok => Function.update parked key (if ok then some snap else none)
    | .unparked _ key _ => Function.update parked key none
    | .forgot key => Function.update parked key none
  Allows parked
    | .unparked readable key found => found = parked key ∨ (readable = false ∧ found = none)
    | _ => True

namespace SwapStore
variable {S : Type} (payloadLen encodedLen : S → ℕ)

def step (store : SwapStore S) : SwapCall S → Option (SwapStore S × List (SwapEvent S))
  | .park io key snap =>
    let (store, ok) := store.park payloadLen encodedLen io key snap
    some (store, [.parked key snap ok])
  | .unpark io key =>
    let (store, found) := store.unpark payloadLen io key
    some (store, [.unparked io.read key found])
  | .forget io key => some (store.dropKey payloadLen io key, [.forgot key])

/-- The host bytes of one entry. -/
def entryBytes : Option (Entry S) → ℕ
  | some (.host snap) => payloadLen snap
  | _ => 0

def onDisk (store : SwapStore S) (key : ℕ) : Bool :=
  match store.entries key with
  | some (.disk _) => true
  | _ => false

/-- A snapshot goes to host memory once its predecessor is dropped. -/
def fitsHost (store : SwapStore S) (key : ℕ) (snap : S) : Prop :=
  store.hostUsed - entryBytes payloadLen (store.entries key) + payloadLen snap ≤ store.hostBudget

instance (store : SwapStore S) (key : ℕ) (snap : S) : Decidable (store.fitsHost payloadLen key snap) :=
  Nat.decLe _ _

/-- No file operation that the store depends on to clean up fails. -/
def Clean (store : SwapStore S) : SwapCall S → Prop
  | .park io key snap =>
    (io.write = true ∧ ¬store.fitsHost payloadLen key snap) ∨
      ((io.torn = false ∨ store.fitsHost payloadLen key snap) ∧ (store.onDisk key = true → io.unlink = true))
  | .unpark io key => store.onDisk key = true → io.read = true ∧ io.unlink = true
  | .forget io key => store.onDisk key = true → io.unlink = true

/-- The host counter is the sum over the host tier. -/
def Counted (entries : ℕ → Option (Entry S)) (used : ℕ) : Prop :=
  ∃ keys : Finset ℕ, (∀ key, key ∈ keys ↔ entries key ≠ none) ∧
    used = ∑ key ∈ keys, entryBytes payloadLen (entries key)

/-- What holds in every state, whatever file operations fail. -/
structure Sound (store : SwapStore S) : Prop where
  counted : Counted payloadLen store.entries store.hostUsed
  budget : store.hostUsed ≤ store.hostBudget
  written : ∀ key, store.onDisk key = true → ∃ snap, store.files key = some (some snap)

/-- Every scratch file belongs to a disk entry. -/
def Owned (store : SwapStore S) : Prop := ∀ key, store.files key ≠ none → store.onDisk key = true

variable {payloadLen encodedLen}

section Counting
variable {entries : ℕ → Option (Entry S)} {used key : ℕ}

theorem Counted.empty : Counted payloadLen (fun _ : ℕ => (none : Option (Entry S))) 0 :=
  ⟨∅, by simp, by simp⟩

theorem Counted.remove (h : Counted payloadLen entries used) (key : ℕ) :
    Counted payloadLen (Function.update entries key none) (used - entryBytes payloadLen (entries key)) := by
  obtain ⟨keys, hkeys, rfl⟩ := h
  refine ⟨keys.erase key, fun other => ?_, ?_⟩
  · rw [Finset.mem_erase, hkeys, Function.update_apply]
    split_ifs with hother
    · simp [hother]
    · simp [hother]
  · have hrest : ∑ other ∈ keys.erase key, entryBytes payloadLen (Function.update entries key none other) =
        ∑ other ∈ keys.erase key, entryBytes payloadLen (entries other) := by
      apply Finset.sum_congr rfl
      intro other hother
      rw [Function.update_of_ne (Finset.ne_of_mem_erase hother)]
    rw [hrest]
    by_cases hmem : key ∈ keys
    · rw [← Finset.sum_erase_add keys _ hmem]
      omega
    · have hnone : entries key = none := not_not.mp fun hne => hmem ((hkeys key).mpr hne)
      rw [Finset.erase_eq_of_notMem hmem, hnone]
      rfl

theorem Counted.insert (h : Counted payloadLen entries used) (habsent : entries key = none) (entry : Entry S) :
    Counted payloadLen (Function.update entries key (some entry)) (used + entryBytes payloadLen (some entry)) := by
  obtain ⟨keys, hkeys, rfl⟩ := h
  have hmem : key ∉ keys := fun hmem => (hkeys key).mp hmem habsent
  refine ⟨Insert.insert key keys, fun other => ?_, ?_⟩
  · rw [Finset.mem_insert, hkeys, Function.update_apply]
    split_ifs with hother
    · simp [hother]
    · simp [hother]
  · have hrest : ∑ other ∈ keys, entryBytes payloadLen (Function.update entries key (some entry) other) =
        ∑ other ∈ keys, entryBytes payloadLen (entries other) := by
      apply Finset.sum_congr rfl
      intro other hother
      have hne : other ≠ key := fun heq => hmem (heq ▸ hother)
      rw [Function.update_of_ne hne]
    rw [Finset.sum_insert hmem, Function.update_self, hrest, Nat.add_comm]

end Counting

section Cleared
variable (payloadLen)

/-- The store without a key; its file is gone if it was unlinked. -/
def cleared (store : SwapStore S) (key : ℕ) (unlinked : Bool) : SwapStore S where
  hostBudget := store.hostBudget
  hostUsed := store.hostUsed - entryBytes payloadLen (store.entries key)
  entries := Function.update store.entries key none
  files := if unlinked then Function.update store.files key none else store.files

variable {payloadLen} {store : SwapStore S} {io : FileIo} {key other : ℕ} {unlinked : Bool}

private theorem dropKey_eq :
    store.dropKey payloadLen io key = store.cleared payloadLen key (store.onDisk key && io.unlink) := by
  unfold dropKey cleared onDisk
  split
  · simp [*, entryBytes]
  · rw [removeFile]
    split_ifs <;> simp_all [entryBytes]
  · simp [*, entryBytes]

private theorem cleared_entry : (store.cleared payloadLen key unlinked).entries key = none :=
  Function.update_self _ _ _

private theorem dropKey_absent (h : store.entries key = none) : store.dropKey payloadLen io key = store := by
  have hsame : Function.update store.entries key none = store.entries := by
    rw [← h, Function.update_eq_self]
  simp only [dropKey, h, hsame]

private theorem take_eq : store.take payloadLen io key =
    (store.cleared payloadLen key (store.onDisk key && io.read && io.unlink),
      if io.read || !store.onDisk key then store.lookup key else none) := by
  unfold take cleared onDisk lookup
  split
  · simp [*, entryBytes]
  · simp [*, entryBytes]
  · rename_i bytes hentry
    simp only [hentry]
    cases hread : io.read
    · simp [entryBytes]
    · cases hfile : store.files key with
      | none =>
        have hsame : Function.update store.files key none = store.files := by
          rw [← hfile, Function.update_eq_self]
        simp [hsame, entryBytes]
      | some contents =>
        rw [removeFile]
        split_ifs with hunlink <;> simp_all [entryBytes]

private theorem unpark_eq : store.unpark payloadLen io key =
    (store.cleared payloadLen key (store.onDisk key && io.read && io.unlink),
      if io.read || !store.onDisk key then store.lookup key else none) := by
  rw [unpark, take_eq]
  cases hfound : if io.read || !store.onDisk key then store.lookup key else none with
  | none =>
    dsimp only
    rw [dropKey_absent cleared_entry]
  | some snap => rfl

private theorem cleared_entries_other (h : other ≠ key) :
    (store.cleared payloadLen key unlinked).entries other = store.entries other :=
  Function.update_of_ne h _ _

private theorem cleared_files_other (h : other ≠ key) :
    (store.cleared payloadLen key unlinked).files other = store.files other := by
  dsimp only [cleared]
  split_ifs
  · exact Function.update_of_ne h _ _
  · rfl

private theorem cleared_lookup :
    (store.cleared payloadLen key unlinked).lookup = Function.update store.lookup key none := by
  funext other
  rw [Function.update_apply]
  split_ifs with h
  · rw [h, lookup, cleared_entry]
  · rw [lookup, lookup, cleared_entries_other h, cleared_files_other h]

private theorem cleared_onDisk (h : other ≠ key) :
    (store.cleared payloadLen key unlinked).onDisk other = store.onDisk other := by
  rw [onDisk, onDisk, cleared_entries_other h]

private theorem Sound.cleared (h : Sound payloadLen store) (key : ℕ) (unlinked : Bool) :
    Sound payloadLen (store.cleared payloadLen key unlinked) where
  counted := h.counted.remove key
  budget := (Nat.sub_le _ _).trans h.budget
  written other hdisk := by
    by_cases heq : other = key
    · rw [heq, onDisk, cleared_entry] at hdisk
      cases hdisk
    · rw [cleared_onDisk heq] at hdisk
      rw [cleared_files_other heq]
      exact h.written other hdisk

/-- Without its entry, the file of a key has to go as well. -/
private theorem Owned.cleared_iff (h : Owned store) (hsound : Sound payloadLen store) :
    Owned (store.cleared payloadLen key unlinked) ↔ (store.onDisk key = true → unlinked = true) := by
  constructor
  · intro hnext hdisk
    by_contra hkept
    obtain ⟨snap, hfile⟩ := hsound.written key hdisk
    have hleft : (store.cleared payloadLen key unlinked).files key ≠ none := by
      simp [SwapStore.cleared, hkept, hfile]
    have := hnext key hleft
    rw [onDisk, cleared_entry] at this
    cases this
  · intro hunlinked other hfile
    by_cases heq : other = key
    · subst heq
      exfalso
      cases hdisk : store.onDisk other
      · have hnone : store.files other = none := not_not.mp fun hne => by
          rw [h other hne] at hdisk
          cases hdisk
        apply hfile
        dsimp only [SwapStore.cleared]
        split_ifs
        · exact Function.update_self _ _ _
        · exact hnone
      · apply hfile
        dsimp only [SwapStore.cleared]
        rw [if_pos (hunlinked hdisk)]
        exact Function.update_self _ _ _
    · rw [cleared_files_other heq] at hfile
      rw [cleared_onDisk heq]
      exact h other hfile

end Cleared

section Stored
variable {store : SwapStore S} {key : ℕ} {snap : S}

/-- A snapshot put into host memory, over a store without the key. -/
private theorem Sound.host (h : Sound payloadLen store) (habsent : store.entries key = none)
    (hfits : store.hostUsed + payloadLen snap ≤ store.hostBudget) :
    Sound payloadLen { store with
      hostUsed := store.hostUsed + payloadLen snap
      entries := Function.update store.entries key (some (.host snap)) } where
  counted := h.counted.insert habsent (.host snap)
  budget := hfits
  written other hdisk := by
    apply h.written other
    rw [onDisk] at hdisk ⊢
    dsimp only at hdisk
    rw [Function.update_apply] at hdisk
    split_ifs at hdisk
    exact hdisk

/-- A snapshot written to its file, over a store without the key. -/
private theorem Sound.disk (h : Sound payloadLen store) (habsent : store.entries key = none) (bytes : ℕ) :
    Sound payloadLen { store with
      files := Function.update store.files key (some (some snap))
      entries := Function.update store.entries key (some (.disk bytes)) } where
  counted := h.counted.insert habsent (.disk bytes)
  budget := h.budget
  written other hdisk := by
    dsimp only
    rw [Function.update_apply]
    split_ifs with heq
    · exact ⟨snap, rfl⟩
    · apply h.written other
      rw [onDisk] at hdisk ⊢
      dsimp only at hdisk
      rw [Function.update_of_ne heq] at hdisk
      exact hdisk

/-- A file torn by a failed write. -/
private theorem Sound.torn (h : Sound payloadLen store) (habsent : store.entries key = none) :
    Sound payloadLen { store with files := Function.update store.files key (some none) } where
  counted := h.counted
  budget := h.budget
  written other hdisk := by
    have hne : other ≠ key := by
      rintro rfl
      rw [onDisk, habsent] at hdisk
      cases hdisk
    dsimp only
    rw [Function.update_of_ne hne]
    exact h.written other hdisk

end Stored

section Steps
variable {store next : SwapStore S} {io : FileIo} {key : ℕ} {snap : S} {call : SwapCall S}
  {events : List (SwapEvent S)}

/-- Where a parked snapshot ends up. -/
private theorem park_cases (payloadLen encodedLen : S → ℕ) (store : SwapStore S) (io : FileIo) (key : ℕ) (snap : S) :
    let rest := store.cleared payloadLen key (store.onDisk key && io.unlink)
    (store.fitsHost payloadLen key snap ∧ store.park payloadLen encodedLen io key snap =
      ({ rest with
          hostUsed := rest.hostUsed + payloadLen snap
          entries := Function.update rest.entries key (some (.host snap)) }, true)) ∨
    (¬store.fitsHost payloadLen key snap ∧ io.write = true ∧ store.park payloadLen encodedLen io key snap =
      ({ rest with
          files := Function.update rest.files key (some (some snap))
          entries := Function.update rest.entries key (some (.disk (encodedLen snap))) }, true)) ∨
    (¬store.fitsHost payloadLen key snap ∧ io.write = false ∧ io.torn = true ∧
      store.park payloadLen encodedLen io key snap =
        ({ rest with files := Function.update rest.files key (some none) }, false)) ∨
    (¬store.fitsHost payloadLen key snap ∧ io.write = false ∧ io.torn = false ∧
      store.park payloadLen encodedLen io key snap = (rest, false)) := by
  intro rest
  have hdrop : store.dropKey payloadLen io key = rest := dropKey_eq
  have hiff : rest.hostUsed + payloadLen snap ≤ rest.hostBudget ↔ store.fitsHost payloadLen key snap := Iff.rfl
  rw [park, put, hdrop]
  by_cases hfits : store.fitsHost payloadLen key snap
  · exact .inl ⟨hfits, by rw [if_pos (hiff.mpr hfits)]⟩
  rw [if_neg (mt hiff.mp hfits)]
  cases hwrite : io.write
  · cases htorn : io.torn
    · exact .inr (.inr (.inr ⟨hfits, rfl, rfl, by simp⟩))
    · exact .inr (.inr (.inl ⟨hfits, rfl, rfl, by simp⟩))
  · exact .inr (.inl ⟨hfits, rfl, by simp⟩)

private theorem park_sound (h : Sound payloadLen store) (io : FileIo) (key : ℕ) (snap : S) :
    Sound payloadLen (store.park payloadLen encodedLen io key snap).1 ∧
      (store.park payloadLen encodedLen io key snap).1.hostBudget = store.hostBudget := by
  have hrest := h.cleared key (store.onDisk key && io.unlink)
  rcases park_cases payloadLen encodedLen store io key snap with
    ⟨hfits, hpark⟩ | ⟨-, -, hpark⟩ | ⟨-, -, -, hpark⟩ | ⟨-, -, -, hpark⟩
  · rw [hpark]
    exact ⟨hrest.host cleared_entry hfits, rfl⟩
  · rw [hpark]
    exact ⟨hrest.disk cleared_entry _, rfl⟩
  · rw [hpark]
    exact ⟨hrest.torn cleared_entry, rfl⟩
  · rw [hpark]
    exact ⟨hrest, rfl⟩

private theorem park_lookup_eq (store : SwapStore S) (io : FileIo) (key : ℕ) (snap : S) :
    (store.park payloadLen encodedLen io key snap).1.lookup = Function.update store.lookup key
      (if (store.park payloadLen encodedLen io key snap).2 then some snap else none) := by
  funext other
  rw [Function.update_apply]
  split_ifs with heq hok
  · rw [heq]
    exact park_lookup (Prod.ext rfl hok)
  · rcases park_cases payloadLen encodedLen store io key snap with
      ⟨-, hpark⟩ | ⟨-, -, hpark⟩ | ⟨-, -, -, hpark⟩ | ⟨-, -, -, hpark⟩
    · exact absurd (by rw [hpark]) hok
    · exact absurd (by rw [hpark]) hok
    · rw [hpark, heq, lookup]
      dsimp only
      rw [cleared_entry]
    · rw [hpark, heq, lookup, cleared_entry]
  · exact park_lookup_other payloadLen encodedLen store io snap heq

/-- One call keeps the counter and the files right and behaves like the map. -/
theorem step_sound (h : Sound payloadLen store) (hstep : store.step payloadLen encodedLen call = some (next, events)) :
    (Sound payloadLen next ∧ next.hostBudget = store.hostBudget) ∧ (swapMap S).Safe store.lookup events ∧
      next.lookup = (swapMap S).after store.lookup events := by
  cases call with
  | park io key snap =>
    simp only [step, Option.some.injEq, Prod.mk.injEq] at hstep
    obtain ⟨rfl, rfl⟩ := hstep
    exact ⟨park_sound h io key snap, ⟨trivial, trivial⟩, park_lookup_eq store io key snap⟩
  | unpark io key =>
    simp only [step, unpark_eq, Option.some.injEq, Prod.mk.injEq] at hstep
    obtain ⟨rfl, rfl⟩ := hstep
    refine ⟨⟨h.cleared key _, rfl⟩, ⟨?_, trivial⟩, cleared_lookup⟩
    cases hread : io.read
    · cases hdisk : store.onDisk key
      · exact .inl (by simp)
      · exact .inr ⟨rfl, by simp⟩
    · exact .inl (by simp)
  | forget io key =>
    simp only [step, dropKey_eq, Option.some.injEq, Prod.mk.injEq] at hstep
    obtain ⟨rfl, rfl⟩ := hstep
    exact ⟨⟨h.cleared key _, rfl⟩, ⟨trivial, trivial⟩, cleared_lookup⟩

private theorem owned_host_iff {used : ℕ} (habsent : store.entries key = none) :
    Owned { store with
      hostUsed := used
      entries := Function.update store.entries key (some (.host snap)) } ↔ Owned store := by
  apply forall_congr'
  intro other
  have hsame : onDisk { store with
      hostUsed := used
      entries := Function.update store.entries key (some (.host snap)) } other = store.onDisk other := by
    rw [onDisk, onDisk]
    dsimp only
    by_cases heq : other = key
    · rw [heq, Function.update_self, habsent]
    · rw [Function.update_of_ne heq]
  rw [hsame]

private theorem owned_disk {unlinked : Bool} {bytes : ℕ} (h : Owned store) :
    Owned { store.cleared payloadLen key unlinked with
      files := Function.update (store.cleared payloadLen key unlinked).files key (some (some snap))
      entries := Function.update (store.cleared payloadLen key unlinked).entries key (some (.disk bytes)) } := by
  intro other hfile
  dsimp only at hfile
  rw [onDisk]
  dsimp only
  by_cases heq : other = key
  · rw [heq, Function.update_self]
  · rw [Function.update_of_ne heq] at hfile
    rw [Function.update_of_ne heq, cleared_entries_other heq]
    rw [cleared_files_other heq] at hfile
    exact h other hfile

private theorem not_owned_torn (habsent : store.entries key = none) :
    ¬Owned { store with files := Function.update store.files key (some none) } := by
  intro h
  have hfile := h key (by simp)
  rw [onDisk, habsent] at hfile
  cases hfile

private theorem park_owned_iff (h : Sound payloadLen store) (howned : Owned store) :
    Owned (store.park payloadLen encodedLen io key snap).1 ↔ store.Clean payloadLen (.park io key snap) := by
  have hrest : Owned (store.cleared payloadLen key (store.onDisk key && io.unlink)) ↔
      (store.onDisk key = true → io.unlink = true) := by
    rw [howned.cleared_iff h]
    constructor
    · intro hboth hdisk
      exact (Bool.and_eq_true_iff.mp (hboth hdisk)).2
    · intro hunlink hdisk
      exact Bool.and_eq_true_iff.mpr ⟨hdisk, hunlink hdisk⟩
  rcases park_cases payloadLen encodedLen store io key snap with
    ⟨hfits, hpark⟩ | ⟨hfits, hwrite, hpark⟩ | ⟨hfits, hwrite, htorn, hpark⟩ | ⟨hfits, hwrite, htorn, hpark⟩
  · rw [hpark]
    simp only [Clean, hfits, not_true_eq_false, and_false, or_true, true_and, false_or, ← hrest]
    exact owned_host_iff cleared_entry
  · rw [hpark]
    simp only [Clean, hwrite, hfits, not_false_eq_true, and_true, true_or, iff_true]
    exact owned_disk howned
  · rw [hpark]
    simp only [Clean, hwrite, htorn, hfits, Bool.false_eq_true, Bool.true_eq_false, false_and, or_self, iff_false]
    exact not_owned_torn cleared_entry
  · rw [hpark, hrest]
    simp [Clean, hwrite, htorn]

/-- One call leaves no stray file exactly when none of its clean-up fails. -/
theorem step_owned_iff (h : Sound payloadLen store) (howned : Owned store)
    (hstep : store.step payloadLen encodedLen call = some (next, events)) :
    Owned next ↔ store.Clean payloadLen call := by
  cases call with
  | park io key snap =>
    simp only [step, Option.some.injEq, Prod.mk.injEq] at hstep
    obtain ⟨rfl, -⟩ := hstep
    exact park_owned_iff h howned
  | unpark io key =>
    simp only [step, unpark_eq, Option.some.injEq, Prod.mk.injEq] at hstep
    obtain ⟨rfl, -⟩ := hstep
    rw [howned.cleared_iff h, Clean]
    simp +contextual
  | forget io key =>
    simp only [step, dropKey_eq, Option.some.injEq, Prod.mk.injEq] at hstep
    obtain ⟨rfl, -⟩ := hstep
    rw [howned.cleared_iff h, Clean]
    simp +contextual

end Steps

section Runs
variable {budget : ℕ} {calls : List (SwapCall S)} {events : List (SwapEvent S)} {store : SwapStore S} {key : ℕ}

private theorem sound_new (budget : ℕ) : Sound payloadLen (new budget : SwapStore S) where
  counted := Counted.empty
  budget := Nat.zero_le budget
  written key hdisk := by cases hdisk

/-- Whatever file operations fail, the counter is right and the store is the map. -/
theorem run_sound {guard : SwapStore S → SwapCall S → Prop}
    (h : Runs (step payloadLen encodedLen) guard (new budget) calls events store) :
    (Sound payloadLen store ∧ store.hostBudget = budget) ∧ (swapMap S).Safe (fun _ => none) events ∧
      store.lookup = (swapMap S).after (fun _ => none) events := by
  refine h.invariant (P := fun events store => (Sound payloadLen store ∧ store.hostBudget = budget) ∧
    (swapMap S).Safe (fun _ => none) events ∧ store.lookup = (swapMap S).after (fun _ => none) events)
    ⟨⟨sound_new budget, rfl⟩, trivial, rfl⟩ ?_
  rintro events store call next emitted ⟨⟨hsound, hbudget⟩, hsafe, hlookup⟩ - hstep
  obtain ⟨⟨hsound', hbudget'⟩, hsafe', hlookup'⟩ := step_sound hsound hstep
  rw [Monitor.safe_append, Monitor.after_append, ← hlookup]
  exact ⟨⟨hsound', hbudget'.trans hbudget⟩, ⟨hsafe, hsafe'⟩, hlookup'⟩

/-- A key without a snapshot has no entry. -/
private theorem Sound.absent (h : Sound payloadLen store) (hlookup : store.lookup key = none) :
    store.entries key = none := by
  cases hentry : store.entries key with
  | none => rfl
  | some entry =>
    cases entry with
    | host snap =>
      rw [lookup, hentry] at hlookup
      cases hlookup
    | disk bytes =>
      obtain ⟨snap, hfile⟩ := h.written key (by rw [onDisk, hentry])
      rw [lookup, hentry] at hlookup
      dsimp only at hlookup
      rw [hfile] at hlookup
      cases hlookup

/-- While no clean-up fails the store is a faithful map: the counter is the sum over the host tier and
within budget, what is unparked is what was parked last, and every scratch file has its entry. -/
theorem clean_run_faithful
    (h : Runs (step payloadLen encodedLen) (Clean payloadLen) (new budget) calls events store) :
    Counted payloadLen store.entries store.hostUsed ∧ store.hostUsed ≤ budget ∧
    (swapMap S).Safe (fun _ => none) events ∧
    (∀ key, store.lookup key = (swapMap S).after (fun _ => none) events key) ∧
    (∀ key, (swapMap S).after (fun _ => none) events key = none → store.entries key = none) ∧
    ∀ key, store.files key ≠ none → store.onDisk key = true := by
  obtain ⟨⟨hsound, hbudget⟩, hsafe, hlookup⟩ := run_sound h
  refine ⟨hsound.counted, hbudget ▸ hsound.budget, hsafe, congrFun hlookup, fun key hnone => ?_, ?_⟩
  · rw [← hlookup] at hnone
    exact hsound.absent hnone
  · have hboth : Sound payloadLen store ∧ Owned store := by
      refine h.state_invariant (P := fun store => Sound payloadLen store ∧ Owned store)
        ⟨sound_new budget, fun key hfile => absurd rfl hfile⟩ ?_
      rintro store call next emitted ⟨hsound, howned⟩ hclean hstep
      exact ⟨(step_sound hsound hstep).1.1, (step_owned_iff hsound howned hstep).mpr hclean⟩
    exact hboth.2

end Runs

section Snapshots
def payloadBytes (snap : Swap.SlotSnapshot) : ℕ := snap.payload.data.length

def encodedBytes (snap : Swap.SlotSnapshot) : ℕ := snap.toBytes.length

/-- What the bytes of a scratch file parse to. -/
def parsed (bytes : List UInt8) : Option Swap.SlotSnapshot :=
  match (Swap.Vec.collect 1 bytes).bind Swap.fromBytes with
  | some (.ok snap) => some snap
  | _ => none

private theorem parsed_eq {bytes : List UInt8} (hfits : bytes.length < 2 ^ 63) :
    ∃ buffer : Swap.Vec 1 UInt8, buffer.data = bytes ∧ parsed bytes = match Swap.fromBytes buffer with
      | some (.ok snap) => some snap
      | _ => none := by
  have hsize : 1 * bytes.length < 2 ^ 63 := by rwa [Nat.one_mul]
  exact ⟨⟨bytes, hsize⟩, rfl, by rw [parsed, Swap.Vec.collect, dif_pos hsize, Option.bind_some]⟩

/-- A file that was written completely holds its snapshot. -/
theorem parsed_toBytes (snap : Swap.SlotSnapshot) (hfits : encodedBytes snap < 2 ^ 63) :
    parsed snap.toBytes = some snap := by
  obtain ⟨buffer, hdata, hparsed⟩ := parsed_eq hfits
  rw [hparsed, Swap.snapshot_round_trip.1 snap buffer hdata]

/-- A file that was not does not parse. -/
theorem parsed_torn {snap : Swap.SlotSnapshot} {part : List UInt8} (hfits : encodedBytes snap < 2 ^ 63)
    (hpart : part <+: snap.toBytes) (hproper : part ≠ snap.toBytes) : parsed part = none := by
  obtain ⟨buffer, rfl, hparsed⟩ := parsed_eq (hpart.length_le.trans_lt hfits)
  obtain ⟨error, herror⟩ := Swap.snapshot_round_trip.2.1 snap buffer hpart hproper
  rw [hparsed, herror]

/-- The files of the store are what the bytes on disk parse to. -/
def Reads (store : SwapStore Swap.SlotSnapshot) (disk : ℕ → Option (List UInt8)) : Prop :=
  ∀ key, store.files key = (disk key).map parsed

variable {store : SwapStore Swap.SlotSnapshot} {disk : ℕ → Option (List UInt8)} {key : ℕ}

theorem Reads.written (h : store.Reads disk) {found : Option (Option Swap.SlotSnapshot)}
    {bytes : Option (List UInt8)} (hbytes : found = bytes.map parsed) (other : ℕ) :
    Function.update store.files key found other = (Function.update disk key bytes other).map parsed := by
  simp only [Function.update_apply]
  split
  · exact hbytes
  · exact h other

private theorem Reads.cleared (h : store.Reads disk) (key : ℕ) (unlinked : Bool) :
    (store.cleared payloadBytes key unlinked).Reads (if unlinked then Function.update disk key none else disk) := by
  cases unlinked with
  | true => exact h.written rfl
  | false => exact h

/-- Parking on the disk: the old file goes, then comes the new one, or the part of it that was
written. -/
def parkBytes (store : SwapStore Swap.SlotSnapshot) (io : FileIo) (key : ℕ) (snap : Swap.SlotSnapshot)
    (part : List UInt8) (disk : ℕ → Option (List UInt8)) : ℕ → Option (List UInt8) :=
  let rest := if store.onDisk key && io.unlink then Function.update disk key none else disk
  if store.fitsHost payloadBytes key snap then rest
  else if io.write then Function.update rest key (some snap.toBytes)
  else if io.torn then Function.update rest key (some part)
  else rest

theorem Reads.park (h : store.Reads disk) (io : FileIo) {snap : Swap.SlotSnapshot} {part : List UInt8}
    (hfits : encodedBytes snap < 2 ^ 63) (hpart : part <+: snap.toBytes) (hproper : part ≠ snap.toBytes) :
    (store.park payloadBytes encodedBytes io key snap).1.Reads (store.parkBytes io key snap part disk) := by
  have hrest := h.cleared key (store.onDisk key && io.unlink)
  rcases park_cases payloadBytes encodedBytes store io key snap with
    ⟨hhost, hpark⟩ | ⟨hhost, hwrite, hpark⟩ | ⟨hhost, hwrite, htorn, hpark⟩ | ⟨hhost, hwrite, htorn, hpark⟩
  · rw [hpark, parkBytes, if_pos hhost]
    exact hrest
  · rw [hpark, parkBytes, if_neg hhost, if_pos hwrite]
    exact hrest.written (by rw [Option.map_some, parsed_toBytes snap hfits])
  · rw [hpark, parkBytes, if_neg hhost, hwrite, htorn, if_neg Bool.false_ne_true, if_pos rfl]
    exact hrest.written (by rw [Option.map_some, parsed_torn hfits hpart hproper])
  · rw [hpark, parkBytes, if_neg hhost, hwrite, htorn, if_neg Bool.false_ne_true, if_neg Bool.false_ne_true]
    exact hrest

/-- A snapshot that comes back from the disk is what the bytes there decode to. -/
theorem Reads.unpark (h : store.Reads disk) {io : FileIo} {snap : Swap.SlotSnapshot}
    {store' : SwapStore Swap.SlotSnapshot} (hdisk : store.onDisk key = true)
    (hunpark : store.unpark payloadBytes io key = (store', some snap)) :
    (∃ bytes, disk key = some bytes ∧ parsed bytes = some snap) ∧
      store'.Reads (if io.read && io.unlink then Function.update disk key none else disk) := by
  rw [unpark_eq, hdisk, Bool.true_and, Bool.not_true, Bool.or_false] at hunpark
  obtain ⟨rfl, hfound⟩ := Prod.mk.inj hunpark
  refine ⟨?_, h.cleared key _⟩
  split at hfound
  · rw [onDisk] at hdisk
    rw [lookup] at hfound
    split at hdisk
    · rename_i bytes hentry
      simp only [hentry, h key] at hfound
      exact Option.map_eq_some_iff.mp (Option.join_eq_some_iff.mp hfound)
    · cases hdisk
  · cases hfound

/-- The store after a snapshot that is larger than its budget. -/
def spilled : SwapStore Swap.SlotSnapshot :=
  ((new 1).park payloadBytes encodedBytes ⟨true, true, false, true⟩ 7 Swap.captured).1

/-- A snapshot spills to disk and is read back; its file goes with it. -/
theorem spilled_and_restored :
    ∃ (events : List (SwapEvent Swap.SlotSnapshot)) (store : SwapStore Swap.SlotSnapshot),
      Runs (step payloadBytes encodedBytes) (Clean payloadBytes) (new 1)
        ([] ++ [.park ⟨true, true, false, true⟩ 7 Swap.captured] ++ [.unpark ⟨true, true, false, true⟩ 7]) events store ∧
      events = [.parked 7 Swap.captured true, .unparked true 7 (some Swap.captured)] ∧
      ∀ key, store.files key ≠ none → store.onDisk key = true := by
  have hclean : Clean payloadBytes (new 1) (.park ⟨true, true, false, true⟩ 7 Swap.captured) :=
    Or.inl ⟨rfl, (by decide : ¬2 ≤ 1)⟩
  have hclean' : spilled.Clean payloadBytes (.unpark ⟨true, true, false, true⟩ 7) := fun _ => ⟨rfl, rfl⟩
  have hparked : Runs (step payloadBytes encodedBytes) (Clean payloadBytes) (new 1)
      ([] ++ [.park ⟨true, true, false, true⟩ 7 Swap.captured]) ([] ++ [.parked 7 Swap.captured true]) spilled :=
    Runs.nil.snoc hclean rfl
  exact ⟨_, _, hparked.snoc hclean' rfl, rfl, (clean_run_faithful (hparked.snoc hclean' rfl)).2.2.2.2.2⟩

/-- A spilled snapshot whose file cannot be read: the entry is gone, the file stays. -/
theorem unreadable_file_left :
    ∃ (events : List (SwapEvent Swap.SlotSnapshot)) (store : SwapStore Swap.SlotSnapshot),
      Runs (step payloadBytes encodedBytes) (fun _ _ => True) (new 1)
        ([] ++ [.park ⟨true, true, false, true⟩ 7 Swap.captured] ++ [.unpark ⟨false, true, false, true⟩ 7]) events store ∧
      store.files 7 = some (some Swap.captured) ∧ store.entries 7 = none :=
  ⟨_, _, (Runs.nil.snoc trivial rfl).snoc trivial rfl, rfl, rfl⟩

end Snapshots

end SwapStore
end Hipscope.Serve
