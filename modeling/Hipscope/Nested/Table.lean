import Mathlib.Data.List.Perm.Basic

/-! Tables of tables: writing at a path, and the paths a table holds. -/
namespace Hipscope.Nested

/-- A value, or a table of named ones. -/
inductive Node (κ α : Type) where
  | leaf (a : α)
  | table (entries : List (κ × Node κ α))

abbrev Table (κ α : Type) := List (κ × Node κ α)

variable {κ α : Type} [DecidableEq κ] {k : κ} {path : List κ} {a : α} {t nested : Table κ α} {v old : Node κ α}

/-- Put a value under a name, in place of the one there. -/
def put {β : Type} : List (κ × β) → κ → β → List (κ × β)
  | [], k, v => [(k, v)]
  | m :: rest, k, v => if m.1 = k then (k, v) :: rest else m :: put rest k v

/-- Write at a path, with new tables on the way; fails, with the path from there on, where a leaf is in the way. -/
def insertPath : List κ → Table κ α → α → Except (List κ) (Table κ α)
  | [], t, _ => .ok t
  | [k], t, a => .ok (put t k (.leaf a))
  | k :: next :: path, t, a =>
    match t.lookup k with
    | none => (insertPath (next :: path) [] a).map fun nested => put t k (.table nested)
    | some (.table nested) => (insertPath (next :: path) nested a).map fun nested => put t k (.table nested)
    | some (.leaf _) => .error (k :: next :: path)

mutual

/-- The leaves of a table with their paths. -/
def leaves : Table κ α → List (List κ × α)
  | [] => []
  | (k, v) :: rest => (nodeLeaves v).map (fun m => (k :: m.1, m.2)) ++ leaves rest

def nodeLeaves : Node κ α → List (List κ × α)
  | .leaf a => [([], a)]
  | .table entries => leaves entries

end

/-- The leaves of a node that has a name. -/
def under (k : κ) (v : Node κ α) : List (List κ × α) := (nodeLeaves v).map fun m => (k :: m.1, m.2)

omit [DecidableEq κ] in
theorem leaves_cons (m : κ × Node κ α) (t : Table κ α) : leaves (m :: t) = under m.1 m.2 ++ leaves t := by
  obtain ⟨k, v⟩ := m
  rw [leaves]
  rfl

omit [DecidableEq κ] in
theorem nodeLeaves_table (t : Table κ α) : nodeLeaves (.table t) = leaves t := by rw [nodeLeaves]

omit [DecidableEq κ] in
theorem under_leaf (k : κ) (a : α) : under k (.leaf a) = [([k], a)] := by
  unfold under
  rw [nodeLeaves]
  rfl

omit [DecidableEq κ] in
theorem under_table (k : κ) (t : Table κ α) : under k (.table t) = (leaves t).map fun m => (k :: m.1, m.2) := by
  unfold under
  rw [nodeLeaves_table]

omit [DecidableEq κ] in
theorem mem_under {m : List κ × α} : m ∈ under k v ↔ ∃ rest, (rest, m.2) ∈ nodeLeaves v ∧ m.1 = k :: rest := by
  unfold under
  rw [List.mem_map]
  constructor
  · rintro ⟨n, hn, rfl⟩
    exact ⟨n.1, hn, rfl⟩
  · rintro ⟨rest, hn, hm⟩
    exact ⟨(rest, m.2), hn, by rw [← hm]⟩

/-- A new name adds its leaves. -/
theorem leaves_put_new (h : t.lookup k = none) (v : Node κ α) : (leaves (put t k v)).Perm (under k v ++ leaves t) := by
  induction t with
  | nil =>
    rw [put, leaves_cons]
  | cons m t ih =>
    rw [List.lookup_cons] at h
    have hne : m.1 ≠ k := by
      rintro rfl
      simp at h
    have hrest : t.lookup k = none := by
      rwa [beq_eq_false_iff_ne.2 hne.symm] at h
    rw [put, if_neg hne, leaves_cons, leaves_cons]
    exact ((ih hrest).append_left _).trans (List.perm_append_comm_assoc _ _ _)

/-- A name that is there keeps all leaves but its own. -/
theorem leaves_put_old (h : t.lookup k = some old) :
    ∃ others, (leaves t).Perm (under k old ++ others) ∧ ∀ v, (leaves (put t k v)).Perm (under k v ++ others) := by
  induction t with
  | nil => cases h
  | cons m t ih =>
    rw [List.lookup_cons] at h
    by_cases hm : m.1 = k
    · rw [beq_iff_eq.2 hm.symm] at h
      obtain rfl := Option.some.inj h
      refine ⟨leaves t, ?_, fun v => ?_⟩
      · rw [leaves_cons, hm]
      · rw [put, if_pos hm, leaves_cons]
    · rw [beq_eq_false_iff_ne.2 (Ne.symm hm)] at h
      obtain ⟨others, hold, hput⟩ := ih h
      refine ⟨under m.1 m.2 ++ others, ?_, fun v => ?_⟩
      · rw [leaves_cons]
        exact (hold.append_left _).trans (List.perm_append_comm_assoc _ _ _)
      · rw [put, if_neg hm, leaves_cons]
        exact ((hput v).append_left _).trans (List.perm_append_comm_assoc _ _ _)

/-- Neither path runs through the other. -/
def Apart (p q : List κ) : Prop := ¬ p <+: q ∧ ¬ q <+: p

/-- Writing at a path apart from all others adds one leaf. -/
theorem insertPath_apart (hne : path ≠ []) (h : ∀ m ∈ leaves t, Apart m.1 path) (a : α) :
    ∃ t', insertPath path t a = .ok t' ∧ (leaves t').Perm ((path, a) :: leaves t) := by
  induction path generalizing t with
  | nil => exact absurd rfl hne
  | cons k path ih =>
    cases hold : t.lookup k with
    | none =>
      cases path with
      | nil =>
        refine ⟨_, rfl, ?_⟩
        rw [← List.singleton_append, ← under_leaf]
        exact leaves_put_new hold _
      | cons next path =>
        obtain ⟨nested, hnested, hleaves⟩ := ih (t := []) (List.cons_ne_nil _ _) (fun m hm => by simp [leaves] at hm)
        refine ⟨put t k (.table nested), ?_, (leaves_put_new hold _).trans ?_⟩
        · rw [insertPath, hold]
          exact congrArg (Except.map _) hnested
        · rw [under_table, ← List.singleton_append]
          exact (hleaves.map _).append_right _
    | some old =>
      obtain ⟨others, hothers, hput⟩ := leaves_put_old hold
      have hinside : ∀ m ∈ nodeLeaves old, Apart (k :: m.1) (k :: path) := by
        intro m hm
        refine h (k :: m.1, m.2) (hothers.mem_iff.2 (List.mem_append_left _ (mem_under.2 ⟨m.1, hm, rfl⟩)))
      cases path with
      | nil =>
        have hnone : under k old = [] := by
          rw [List.eq_nil_iff_forall_not_mem]
          intro m hm
          obtain ⟨rest, hrest, -⟩ := mem_under.1 hm
          exact (hinside _ hrest).2 (by simp)
        rw [hnone, List.nil_append] at hothers
        refine ⟨_, rfl, (hput _).trans ?_⟩
        rw [under_leaf]
        exact (hothers.symm.cons _)
      | cons next path =>
        cases old with
        | leaf b =>
          have hleaf := hinside ([], b) (by rw [nodeLeaves]; exact List.mem_singleton_self _)
          exact absurd (by simp) hleaf.1
        | table nested =>
          rw [nodeLeaves_table] at hinside
          obtain ⟨nested', hnested, hleaves⟩ := ih (t := nested) (List.cons_ne_nil _ _) fun m hm =>
            ⟨fun hp => (hinside m hm).1 (List.cons_prefix_cons.2 ⟨rfl, hp⟩),
              fun hp => (hinside m hm).2 (List.cons_prefix_cons.2 ⟨rfl, hp⟩)⟩
          refine ⟨put t k (.table nested'), ?_, (hput _).trans ?_⟩
          · rw [insertPath, hold]
            exact congrArg (Except.map _) hnested
          · refine List.Perm.trans ?_ (hothers.symm.cons _)
            rw [under_table, under_table, ← List.cons_append]
            exact (hleaves.map _).append_right _

/-- Writing a list at paths apart from each other keeps all leaves and adds those of the list. -/
theorem insertAll_apart {ε : Type} {write : Table κ α → List κ × α → Except ε (Table κ α)}
    (hwrite : ∀ t m t', insertPath m.1 t m.2 = .ok t' → write t m = .ok t') {items : List (List κ × α)}
    (hne : ∀ m ∈ items, m.1 ≠ []) (hitems : items.Pairwise fun m n => Apart m.1 n.1)
    (h : ∀ m ∈ leaves t, ∀ n ∈ items, Apart m.1 n.1) :
    ∃ t', items.foldlM write t = .ok t' ∧ (leaves t').Perm (items ++ leaves t) := by
  induction items generalizing t with
  | nil => exact ⟨t, rfl, List.Perm.refl _⟩
  | cons n items ih =>
    obtain ⟨hfirst, hrest⟩ := List.pairwise_cons.1 hitems
    obtain ⟨t', hinsert, hleaves⟩ :=
      insertPath_apart (hne n List.mem_cons_self) (fun m hm => h m hm n List.mem_cons_self) n.2
    have happart : ∀ m ∈ leaves t', ∀ m' ∈ items, Apart m.1 m'.1 := by
      intro m hm m' hm'
      rcases List.mem_cons.1 (hleaves.mem_iff.1 hm) with rfl | hm
      · exact hfirst m' hm'
      · exact h m hm m' (List.mem_cons_of_mem _ hm')
    obtain ⟨t'', hall, hleaves'⟩ := ih (fun m hm => hne m (List.mem_cons_of_mem _ hm)) hrest happart
    refine ⟨t'', ?_, hleaves'.trans ?_⟩
    · rw [List.foldlM_cons, hwrite t n t' hinsert]
      exact hall
    · exact (hleaves.append_left items).trans List.perm_middle

theorem lookup_put_ne {k' : κ} (hne : k' ≠ k) (v : Node κ α) : (put t k v).lookup k' = t.lookup k' := by
  induction t with
  | nil => rw [put, List.lookup_cons, beq_eq_false_iff_ne.2 hne]
  | cons m t ih =>
    rw [put]
    by_cases hm : m.1 = k
    · rw [if_pos hm, List.lookup_cons, List.lookup_cons, beq_eq_false_iff_ne.2 hne,
        beq_eq_false_iff_ne.2 (hm ▸ hne)]
    · rw [if_neg hm, List.lookup_cons, List.lookup_cons, ih]

/-- Writing at a path keeps what stands under every other name. -/
theorem insertPath_lookup {t' : Table κ α} (h : insertPath path t a = .ok t') (hhead : path.head? ≠ some k) :
    t'.lookup k = t.lookup k := by
  cases path with
  | nil =>
    obtain rfl := Except.ok.inj h
    rfl
  | cons name path =>
    have hne : k ≠ name := by
      rintro rfl
      exact hhead rfl
    have hput : ∃ v, t' = put t name v := by
      cases path with
      | nil => exact ⟨_, (Except.ok.inj h).symm⟩
      | cons next path =>
        have hmap : ∀ {x : Except (List κ) (Table κ α)},
            x.map (fun nested => put t name (.table nested)) = .ok t' → ∃ v, t' = put t name v := by
          intro x hx
          cases x with
          | error e => cases hx
          | ok nested => exact ⟨_, (Except.ok.inj hx).symm⟩
        rw [insertPath] at h
        cases hold : t.lookup name with
        | none =>
          rw [hold] at h
          exact hmap h
        | some old =>
          rw [hold] at h
          cases old with
          | leaf b => cases h
          | table nested => exact hmap h
    obtain ⟨v, rfl⟩ := hput
    exact lookup_put_ne hne v

theorem insertAll_lookup {ε : Type} {write : Table κ α → List κ × α → Except ε (Table κ α)}
    (hwrite : ∀ t m t', write t m = .ok t' → insertPath m.1 t m.2 = .ok t') {items : List (List κ × α)}
    (hhead : ∀ m ∈ items, m.1.head? ≠ some k) {t' : Table κ α} (h : items.foldlM write t = .ok t') :
    t'.lookup k = t.lookup k := by
  induction items generalizing t with
  | nil =>
    obtain rfl := Except.ok.inj h
    rfl
  | cons n items ih =>
    rw [List.foldlM_cons] at h
    cases hn : write t n with
    | error e =>
      rw [hn] at h
      cases h
    | ok mid =>
      rw [hn] at h
      rw [ih (fun m hm => hhead m (List.mem_cons_of_mem n hm)) h]
      exact insertPath_lookup (hwrite t n mid hn) (hhead n List.mem_cons_self)

theorem lookup_put_self (v : Node κ α) : (put t k v).lookup k = some v := by
  induction t with
  | nil => rw [put, List.lookup_cons, beq_self_eq_true]
  | cons m t ih =>
    rw [put]
    by_cases hm : m.1 = k
    · rw [if_pos hm, List.lookup_cons, beq_self_eq_true]
    · rw [if_neg hm, List.lookup_cons, beq_eq_false_iff_ne.2 (Ne.symm hm)]
      exact ih

/-- Writing never turns a leaf into a table, and writes nothing below one. -/
theorem insertPath_leaf {t' : Table κ α} {b : α} (hleaf : t.lookup k = some (.leaf b))
    (h : insertPath path t a = .ok t') :
    (∃ b', t'.lookup k = some (.leaf b')) ∧ ∀ next rest, path ≠ k :: next :: rest := by
  by_cases hhead : path.head? = some k
  · obtain ⟨rest, rfl⟩ := List.head?_eq_some_iff.1 hhead
    cases rest with
    | nil =>
      obtain rfl := Except.ok.inj h
      exact ⟨⟨a, lookup_put_self _⟩, fun next rest heq => nomatch (List.cons.inj heq).2⟩
    | cons next rest =>
      rw [insertPath, hleaf] at h
      cases h
  · refine ⟨⟨b, (insertPath_lookup h hhead).trans hleaf⟩, fun next rest heq => hhead ?_⟩
    rw [heq]
    rfl

/-- Nothing is written below a leaf at the top. -/
theorem insertAll_leaf {ε : Type} {write : Table κ α → List κ × α → Except ε (Table κ α)}
    (hwrite : ∀ t m t', write t m = .ok t' → insertPath m.1 t m.2 = .ok t') {items : List (List κ × α)} {b : α}
    (hleaf : t.lookup k = some (.leaf b)) {t' : Table κ α} (h : items.foldlM write t = .ok t') :
    ∀ m ∈ items, ∀ next rest, m.1 ≠ k :: next :: rest := by
  induction items generalizing t b with
  | nil => exact fun m hm => absurd hm List.not_mem_nil
  | cons n items ih =>
    rw [List.foldlM_cons] at h
    cases hn : write t n with
    | error e =>
      rw [hn] at h
      cases h
    | ok mid =>
      rw [hn] at h
      obtain ⟨⟨b', hmid⟩, hbelow⟩ := insertPath_leaf hleaf (hwrite t n mid hn)
      exact List.forall_mem_cons.2 ⟨hbelow, ih hmid h⟩

end Hipscope.Nested
