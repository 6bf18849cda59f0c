import Mathlib.Data.List.AList
import Mathlib.Data.List.Forall2

/-!
# Folds that build a map

Inserting a list of entries one after the other leaves, for each key, the
last of them; pushing them onto groups leaves, for each key, all of them
in order. And a fallible fold succeeds when each of its steps does.
-/

namespace Support

variable {ε α β γ : Type}

/-! ## Fallible steps -/

theorem bind_eq_ok {x : Except ε α} {f : α → Except ε β} {r : β} :
    x >>= f = .ok r ↔ ∃ y, x = .ok y ∧ f y = .ok r := by
  cases x with
  | error e => simp [bind, Except.bind]
  | ok y => simp [bind, Except.bind]

theorem pure_eq_ok {x y : α} : (pure x : Except ε α) = .ok y ↔ x = y := by
  simp [pure, Except.pure]

/-- A fold whose steps may fail, and only then change what is folded. -/
theorem foldlM_eq_ok {g : α → Except ε β} {h : γ → β → γ} {xs : List α} {m r : γ} :
    xs.foldlM (fun acc x => g x >>= fun y => .ok (h acc y)) m = .ok r ↔
      ∃ ys, List.Forall₂ (fun x y => g x = .ok y) xs ys ∧ r = ys.foldl h m := by
  induction xs generalizing m with
  | nil =>
    simp only [List.foldlM_nil, List.forall₂_nil_left_iff, exists_eq_left, List.foldl_nil]
    exact ⟨fun h => (Except.ok.inj h).symm, fun h => by rw [h]; rfl⟩
  | cons x xs ih =>
    simp only [List.foldlM_cons, bind_eq_ok]
    constructor
    · rintro ⟨m', ⟨y, hy, hm⟩, hrest⟩
      simp only [Except.ok.injEq] at hm
      subst hm
      obtain ⟨ys, hys, hr⟩ := ih.1 hrest
      exact ⟨y :: ys, List.Forall₂.cons hy hys, hr⟩
    · rintro ⟨_, hys, hr⟩
      cases hys with
      | cons hy hys => exact ⟨_, ⟨_, hy, rfl⟩, ih.2 ⟨_, hys, hr⟩⟩

/-- A fold fails with the one error its steps have, if some step has it. -/
theorem foldlM_eq_error {g : α → Except ε β} {h : γ → β → γ} {xs : List α} {m : γ} {e : ε}
    (hg : ∀ x ∈ xs, (∃ y, g x = .ok y) ∨ g x = .error e) (hx : ∃ x ∈ xs, g x = .error e) :
    xs.foldlM (fun acc x => g x >>= fun y => .ok (h acc y)) m = .error e := by
  induction xs generalizing m with
  | nil => simp at hx
  | cons x xs ih =>
    rw [List.foldlM_cons]
    rcases hg x List.mem_cons_self with ⟨y, hy⟩ | hy
    · rw [hy]
      refine ih (fun z hz => hg z (List.mem_cons_of_mem _ hz)) ?_
      obtain ⟨z, hz, he⟩ := hx
      rcases List.mem_cons.1 hz with rfl | hz
      · rw [hy] at he
        exact absurd he (by simp)
      · exact ⟨z, hz, he⟩
    · rw [hy]
      rfl

/-! ## Lists -/

theorem exists_forall₂ {R : α → β → Prop} {xs : List α} (h : ∀ x ∈ xs, ∃ y, R x y) :
    ∃ ys, List.Forall₂ R xs ys := by
  induction xs with
  | nil => exact ⟨[], List.Forall₂.nil⟩
  | cons x xs ih =>
    obtain ⟨y, hy⟩ := h x List.mem_cons_self
    obtain ⟨ys, hys⟩ := ih fun z hz => h z (List.mem_cons_of_mem _ hz)
    exact ⟨y :: ys, List.Forall₂.cons hy hys⟩

theorem exists_of_forall₂_right {R : α → β → Prop} {xs : List α} {ys : List β} {y : β}
    (h : List.Forall₂ R xs ys) (hy : y ∈ ys) : ∃ x ∈ xs, R x y := by
  induction h with
  | nil => simp at hy
  | cons hr _ ih =>
    rcases List.mem_cons.1 hy with rfl | hy
    · exact ⟨_, List.mem_cons_self, hr⟩
    · obtain ⟨x, hx, hxy⟩ := ih hy
      exact ⟨x, List.mem_cons_of_mem _ hx, hxy⟩

theorem exists_of_forall₂_left {R : α → β → Prop} {xs : List α} {ys : List β} {x : α}
    (h : List.Forall₂ R xs ys) (hx : x ∈ xs) : ∃ y ∈ ys, R x y :=
  exists_of_forall₂_right h.flip hx

/-- Of two members of an ordered list, one comes first. -/
theorem eq_or_of_pairwise {R : α → α → Prop} {xs : List α} {x y : α} (h : xs.Pairwise R)
    (hx : x ∈ xs) (hy : y ∈ xs) : x = y ∨ R x y ∨ R y x := by
  induction h with
  | nil => simp at hx
  | cons hr _ ih =>
    rcases List.mem_cons.1 hx with rfl | hx'
    · rcases List.mem_cons.1 hy with rfl | hy'
      · exact Or.inl rfl
      · exact Or.inr (Or.inl (hr _ hy'))
    · rcases List.mem_cons.1 hy with rfl | hy'
      · exact Or.inr (Or.inr (hr _ hx'))
      · exact ih hx' hy'

/-- The last member of an ordered list is its greatest. -/
theorem getLast?_eq_some_iff_max {f : α → ℕ} {xs : List α} {x : α}
    (h : xs.Pairwise fun y z => f y < f z) :
    xs.getLast? = some x ↔ x ∈ xs ∧ ∀ y ∈ xs, f y ≤ f x := by
  constructor
  · intro hx
    obtain ⟨ys, rfl⟩ := List.getLast?_eq_some_iff.1 hx
    refine ⟨by simp, fun y hy => ?_⟩
    rcases List.mem_append.1 hy with hy | hy
    · exact le_of_lt ((List.pairwise_append.1 h).2.2 y hy x (by simp))
    · rw [List.mem_singleton.1 hy]
  · rintro ⟨hx, hmax⟩
    obtain ⟨ys, z, rfl⟩ := List.eq_nil_or_concat' xs |>.resolve_left (List.ne_nil_of_mem hx)
    rcases List.mem_append.1 hx with hy | hy
    · have h1 := (List.pairwise_append.1 h).2.2 x hy z (by simp)
      have h2 := hmax z (by simp)
      omega
    · rw [List.mem_singleton.1 hy]
      simp

/-! ## Maps -/

section Maps

variable {κ V : Type} [DecidableEq κ] {k : κ}

/-- The values a list of entries has for a key, in order. -/
def valuesOf (k : κ) (ps : List (κ × V)) : List V := (ps.filter fun p => p.1 = k).map Prod.snd

@[simp] theorem valuesOf_nil : valuesOf k ([] : List (κ × V)) = [] := rfl

theorem valuesOf_cons {p : κ × V} {ps : List (κ × V)} :
    valuesOf k (p :: ps) = if p.1 = k then p.2 :: valuesOf k ps else valuesOf k ps := by
  unfold valuesOf
  by_cases h : p.1 = k <;> simp [h]

theorem mem_valuesOf {v : V} {ps : List (κ × V)} : v ∈ valuesOf k ps ↔ (k, v) ∈ ps := by
  constructor
  · intro h
    obtain ⟨⟨k', v'⟩, hp, rfl⟩ := List.mem_map.1 h
    obtain ⟨hp, hk⟩ := List.mem_filter.1 hp
    simp only [decide_eq_true_eq] at hk
    rwa [← hk]
  · intro h
    exact List.mem_map.2 ⟨(k, v), List.mem_filter.2 ⟨h, by simp⟩, rfl⟩

/-- Insert entries one after the other. -/
def insertAll (m : AList fun _ : κ => V) (ps : List (κ × V)) : AList fun _ : κ => V :=
  ps.foldl (fun m p => m.insert p.1 p.2) m

theorem insertAll_cons {m : AList fun _ : κ => V} {p : κ × V} {ps : List (κ × V)} :
    insertAll m (p :: ps) = insertAll (m.insert p.1 p.2) ps := rfl

theorem insertAll_append {m : AList fun _ : κ => V} {ps qs : List (κ × V)} :
    insertAll m (ps ++ qs) = insertAll (insertAll m ps) qs := List.foldl_append

/-- **The last entry of a key is the one that stays.** -/
theorem lookup_insertAll {m : AList fun _ : κ => V} {ps : List (κ × V)} :
    (insertAll m ps).lookup k = (valuesOf k ps).getLast?.or (m.lookup k) := by
  induction ps generalizing m with
  | nil => simp [insertAll]
  | cons p ps ih =>
    rw [insertAll_cons, ih, valuesOf_cons]
    by_cases h : p.1 = k
    · subst h
      rw [if_pos rfl, AList.lookup_insert, List.getLast?_cons]
      cases (valuesOf p.1 ps).getLast? <;> rfl
    · rw [if_neg h, AList.lookup_insert_ne (Ne.symm h)]

theorem valuesOf_map {α : Type} {key : α → κ} {value : α → V} {xs : List α} :
    valuesOf k (xs.map fun x => (key x, value x)) = (xs.filter fun x => key x = k).map value := by
  rw [valuesOf, List.filter_map, List.map_map]
  rfl

/-- **Of entries in an order, the greatest of a key is the one that stays.** -/
theorem lookup_insertAll_eq_some {α : Type} {key : α → κ} {value : α → V} {f : α → ℕ} {xs : List α}
    {v : V} (h : xs.Pairwise fun y z => f y < f z) :
    (insertAll ∅ (xs.map fun x => (key x, value x))).lookup k = some v ↔
      ∃ x ∈ xs, key x = k ∧ value x = v ∧ ∀ y ∈ xs, key y = k → f y ≤ f x := by
  rw [lookup_insertAll, valuesOf_map, List.getLast?_map, AList.lookup_empty, Option.or_none,
    Option.map_eq_some_iff]
  simp only [getLast?_eq_some_iff_max (h.filter _), List.mem_filter, decide_eq_true_eq]
  constructor
  · rintro ⟨x, ⟨⟨hx, hkey⟩, hmax⟩, hv⟩
    exact ⟨x, hx, hkey, hv, fun y hy hk => hmax y ⟨hy, hk⟩⟩
  · rintro ⟨x, hx, hkey, hv, hmax⟩
    exact ⟨x, ⟨⟨hx, hkey⟩, fun y hy => hmax y hy.1 hy.2⟩, hv⟩

theorem mem_of_lookup_insertAll {m : AList fun _ : κ => V} {ps : List (κ × V)} {v : V}
    (h : (insertAll m ps).lookup k = some v) : (k, v) ∈ ps ∨ m.lookup k = some v := by
  rw [lookup_insertAll, Option.or_eq_some_iff] at h
  rcases h with h | ⟨-, h⟩
  · exact Or.inl (mem_valuesOf.1 (List.mem_of_getLast? h))
  · exact Or.inr h

/-- Push entries onto the groups of their keys. -/
def pushAll (m : AList fun _ : κ => List V) (ps : List (κ × V)) : AList fun _ : κ => List V :=
  ps.foldl (fun m p => m.insert p.1 ((m.lookup p.1).getD [] ++ [p.2])) m

/-- **A group is all the entries of its key**, in order. -/
theorem lookup_pushAll {m : AList fun _ : κ => List V} {ps : List (κ × V)} :
    (pushAll m ps).lookup k =
      if valuesOf k ps = [] then m.lookup k
      else some ((m.lookup k).getD [] ++ valuesOf k ps) := by
  induction ps generalizing m with
  | nil => rfl
  | cons p ps ih =>
    rw [pushAll, List.foldl_cons, ← pushAll, ih, valuesOf_cons]
    by_cases h : p.1 = k
    · subst h
      rw [if_pos rfl, AList.lookup_insert]
      by_cases hv : valuesOf p.1 ps = [] <;> simp [hv]
    · rw [if_neg h, AList.lookup_insert_ne (Ne.symm h)]

end Maps

end Support
