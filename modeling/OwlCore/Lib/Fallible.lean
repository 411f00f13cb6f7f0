import Mathlib.Data.List.Forall2
import Mathlib.Tactic.Common

/-!
# Computations that may fail

Inversion rules for `Except`: a sequence succeeds when its parts do, and a loop
over a list succeeds when every call does.
-/
namespace OwlCore.Fallible

open List

variable {ε α β γ : Type}

variable {x : Except ε α} {f : α → Except ε β} {b : β}

theorem bind_eq_ok :
    (x >>= f) = .ok b ↔ ∃ a, x = .ok a ∧ f a = .ok b := by
  cases x with
  | error e => simp [bind, Except.bind]
  | ok a => simp [bind, Except.bind]

theorem bind_eq_error :
    (x >>= f) = .error e ↔ x = .error e ∨ ∃ a, x = .ok a ∧ f a = .error e := by
  cases x with
  | error e' => simp [bind, Except.bind]
  | ok a => simp [bind, Except.bind]

/-- A chain of checks that passes still passes after each of its checks is replaced by one that
passes whenever it did. -/
theorem bind_mono {y : Except ε α} {g : α → Except ε β}
    (hx : ∀ a, x = .ok a → y = .ok a) (hf : ∀ a, f a = .ok b → g a = .ok b) (h : (x >>= f) = .ok b) :
    (y >>= g) = .ok b := by
  obtain ⟨a, ha, h⟩ := bind_eq_ok.mp h
  exact bind_eq_ok.mpr ⟨a, hx a ha, hf a h⟩

theorem check_bind_eq_ok {x : Except ε Unit} {f : Unit → Except ε β} :
    (x >>= f) = .ok b ↔ x = .ok () ∧ f () = .ok b := by
  cases x with
  | error e => simp [bind, Except.bind]
  | ok a => simp [bind, Except.bind]

theorem map_eq_ok {f : α → β} :
    (f <$> x) = .ok b ↔ ∃ a, x = .ok a ∧ f a = b := by
  cases x with
  | error e => simp [Functor.map, Except.map]
  | ok a => simp [Functor.map, Except.map]

variable {a : α}

theorem guard_eq_ok [Decidable p] :
    (if p then .error e else x) = .ok a ↔ ¬p ∧ x = .ok a := by
  by_cases h : p <;> simp [h]

theorem exists_of_toOption_any (h : x.toOption.any p) :
    ∃ a, x = .ok a ∧ p a = true := by
  cases x with
  | error e => simp [Except.toOption] at h
  | ok a => exact ⟨a, rfl, h⟩

theorem exists_of_isOk (h : x.isOk) : ∃ a, x = .ok a := by
  cases x with
  | error e => simp [Except.isOk, Except.toBool] at h
  | ok a => exact ⟨a, rfl⟩

theorem exists_ok_ne [DecidableEq α] {y : Except ε α}
    (h : x.toOption.any fun a => y.toOption.any fun b => a ≠ b) : ∃ a b, x = .ok a ∧ y = .ok b ∧ a ≠ b := by
  cases x with
  | error e => simp [Except.toOption] at h
  | ok a =>
    cases y with
    | error e => simp [Except.toOption] at h
    | ok b => exact ⟨a, b, rfl, rfl, by simpa [Except.toOption] using h⟩

variable {l : List α} {l' : List β}

/-- A loop succeeds exactly when each call does, with the results in order. -/
theorem mapM_eq_ok :
    l.mapM f = .ok l' ↔ Forall₂ (fun a b => f a = .ok b) l l' := by
  induction l generalizing l' with
  | nil => cases l' <;> simp [pure, Except.pure]
  | cons a l ih =>
    rw [mapM_cons, bind_eq_ok]
    constructor
    · rintro ⟨b, hb, h⟩
      obtain ⟨bs, hbs, h⟩ := bind_eq_ok.mp h
      obtain rfl := Except.ok.inj h
      exact Forall₂.cons hb (ih.mp hbs)
    · intro h
      cases h with
      | cons hb hbs => exact ⟨_, hb, bind_eq_ok.mpr ⟨_, ih.mpr hbs, rfl⟩⟩

theorem exists_of_mem_mapM (h : l.mapM f = .ok l') (hb : b ∈ l') : ∃ a ∈ l, f a = .ok b := by
  rw [mapM_eq_ok] at h
  induction h with
  | nil => simp at hb
  | cons hcall _ ih =>
    rcases mem_cons.mp hb with rfl | hb
    · exact ⟨_, by simp, hcall⟩
    · obtain ⟨a, ha, hab⟩ := ih hb
      exact ⟨a, by simp [ha], hab⟩

theorem forall₂_eq_map {g : α → β} {p : α → Prop} (h : Forall₂ R l l') (hR : ∀ a ∈ l, ∀ b, R a b → b = g a ∧ p a) :
    l' = l.map g ∧ ∀ a ∈ l, p a := by
  induction h with
  | nil => simp
  | @cons a b l l' hab _ ih =>
    obtain ⟨rfl, hrest⟩ := ih fun c hc => hR c (.tail _ hc)
    obtain ⟨rfl, ha⟩ := hR a (.head _) b hab
    exact ⟨rfl, by simpa using ⟨ha, hrest⟩⟩

theorem mapM_eq_ok_iff {p : α → Prop} {g : α → β} (hf : ∀ a b, f a = .ok b ↔ p a ∧ b = g a) :
    l.mapM f = .ok l' ↔ (∀ a ∈ l, p a) ∧ l' = l.map g := by
  rw [mapM_eq_ok]
  simp only [hf]
  induction l generalizing l' with
  | nil => simp
  | cons a l ih =>
    cases l' with
    | nil => simp
    | cons b l' =>
      rw [forall₂_cons, ih]
      simp only [mem_cons, forall_eq_or_imp, map_cons, List.cons.injEq]
      tauto

theorem forM_eq_ok {f : α → Except ε Unit} {u : Unit} :
    l.forM f = .ok u ↔ ∀ a ∈ l, f a = .ok () := by
  induction l with
  | nil => simp [List.forM, pure, Except.pure]
  | cons a l ih => rw [List.forM, check_bind_eq_ok, ih, forall_mem_cons]

theorem exists_of_forall₂ (h : Forall₂ R l l') (ha : a ∈ l) : ∃ b ∈ l', R a b := by
  induction h with
  | nil => cases ha
  | cons hcall _ ih =>
    rcases mem_cons.mp ha with rfl | ha
    · exact ⟨_, mem_cons_self .., hcall⟩
    · obtain ⟨b, hb, hr⟩ := ih ha
      exact ⟨b, mem_cons_of_mem _ hb, hr⟩

theorem getElem?_of_forall₂ (h : Forall₂ R l l')
    {i : Nat} (ha : l[i]? = some a) : ∃ b, l'[i]? = some b ∧ R a b := by
  induction h generalizing i with
  | nil => simp at ha
  | cons hab _ ih =>
    cases i with
    | zero =>
      obtain rfl : _ = a := by simpa using ha
      exact ⟨_, by simp, hab⟩
    | succ i => simpa using ih (by simpa using ha)

theorem exists_of_mem_left (h : l.mapM f = .ok l') (ha : a ∈ l) : ∃ b ∈ l', f a = .ok b :=
  exists_of_forall₂ (mapM_eq_ok.mp h) ha

/-- A loop over calls that succeed where others do, with the images of their results. -/
theorem mapM_ok_map {g : α → Except ε γ} {h : β → γ}
    (hf : l.mapM f = .ok l') (hfg : ∀ a ∈ l, ∀ b, f a = .ok b → g a = .ok (h b)) :
    l.mapM g = .ok (l'.map h) := by
  rw [mapM_eq_ok] at hf ⊢
  induction hf with
  | nil => exact .nil
  | cons hcall _ ih =>
    exact .cons (hfg _ (.head _) _ hcall) (ih fun a ha => hfg a (.tail _ ha))

theorem mapM_perm {l' : List α} (h : l.Perm l') {r : List β}
    (hr : l.mapM f = .ok r) : ∃ r', l'.mapM f = .ok r' ∧ (r.zip l).Perm (r'.zip l') := by
  induction h generalizing r with
  | nil => exact ⟨r, hr, .refl _⟩
  | cons a _ ih =>
    simp only [mapM_cons, bind_eq_ok] at hr
    obtain ⟨b, hb, bs, hbs, hr⟩ := hr
    obtain rfl := Except.ok.inj hr
    obtain ⟨bs', hbs', hperm⟩ := ih hbs
    exact ⟨b :: bs', by rw [mapM_cons, hb, hbs']; rfl, hperm.cons _⟩
  | swap a a' l =>
    simp only [mapM_cons, bind_eq_ok] at hr
    obtain ⟨b, hb, bs, ⟨b', hb', bs', hbs', hbs⟩, hr⟩ := hr
    obtain rfl := Except.ok.inj hbs
    obtain rfl := Except.ok.inj hr
    refine ⟨b' :: b :: bs', ?_, .swap _ _ _⟩
    simp [mapM_cons, hb, hb', hbs', bind, Except.bind, pure, Except.pure]
  | trans _ _ ih ih' =>
    obtain ⟨r', hr', hperm⟩ := ih hr
    obtain ⟨r'', hr'', hperm'⟩ := ih' hr'
    exact ⟨r'', hr'', hperm.trans hperm'⟩

/-- A loop whose steps only check that a growing measure stays within a bound. -/
theorem foldlM_guarded {σ : Type} {step : σ → α → σ} {guarded : σ → α → Except ε σ} {measure : σ → Nat}
    {bound : Nat} (hmono : ∀ s a, measure s ≤ measure (step s a))
    (hguarded : ∀ s a s', measure s ≤ bound →
      (guarded s a = .ok s' ↔ measure (step s a) ≤ bound ∧ s' = step s a)) {s s' : σ} (hs : measure s ≤ bound) :
    l.foldlM guarded s = .ok s' ↔ measure (l.foldl step s) ≤ bound ∧ s' = l.foldl step s := by
  have hgrow : ∀ (l : List α) s, measure s ≤ measure (l.foldl step s) := by
    intro l
    induction l with
    | nil => exact fun _ => Nat.le_refl _
    | cons a l ih => exact fun s => Nat.le_trans (hmono s a) (ih _)
  induction l generalizing s with
  | nil =>
    simp only [foldlM_nil, foldl_nil, pure, Except.pure, Except.ok.injEq]
    constructor
    · rintro rfl
      exact ⟨hs, rfl⟩
    · rintro ⟨-, rfl⟩
      rfl
  | cons a l ih =>
    rw [foldlM_cons, bind_eq_ok, foldl_cons]
    constructor
    · rintro ⟨t, ht, hrest⟩
      obtain ⟨hstep, rfl⟩ := (hguarded s a t hs).mp ht
      exact (ih hstep).mp hrest
    · rintro ⟨hbound, rfl⟩
      have hstep := Nat.le_trans (hgrow l (step s a)) hbound
      exact ⟨step s a, (hguarded s a _ hs).mpr ⟨hstep, rfl⟩, (ih hstep).mpr ⟨hbound, rfl⟩⟩

/-- A loop over an index whose states are known: it succeeds when every round passes its checks. -/
theorem foldlM_range_eq_ok {σ : Type} {f : σ → Nat → Except ε σ} {state : Nat → σ} {p : Nat → Prop} {n : Nat}
    (hf : ∀ i < n, ∀ s, f (state i) i = .ok s ↔ p i ∧ s = state (i + 1)) {s : σ} :
    (List.range n).foldlM f (state 0) = .ok s ↔ (∀ i < n, p i) ∧ s = state n := by
  induction n generalizing s with
  | zero => simp [pure, Except.pure, eq_comm]
  | succ n ih =>
    have ih' := fun t => ih (fun i hi => hf i (Nat.lt_succ_of_lt hi)) (s := t)
    simp only [range_succ, foldlM_append, foldlM_cons, foldlM_nil, bind_eq_ok, ih', pure,
      Except.pure, Except.ok.injEq, exists_eq_right]
    constructor
    · rintro ⟨t, ⟨hall, rfl⟩, hlast⟩
      obtain ⟨hn, rfl⟩ := (hf n (Nat.lt_succ_self n) s).mp hlast
      exact ⟨fun i hi => (Nat.lt_succ_iff_lt_or_eq.mp hi).elim (hall i) (fun h => h ▸ hn), rfl⟩
    · rintro ⟨hall, rfl⟩
      exact ⟨state n, ⟨fun i hi => hall i (Nat.lt_succ_of_lt hi), rfl⟩,
        (hf n (Nat.lt_succ_self n) _).mpr ⟨hall n (Nat.lt_succ_self n), rfl⟩⟩

theorem getElem?_of_mapM_eq_some {f : α → Option β} {r : List β} (h : l.mapM f = some r) (i : Nat) :
    r[i]? = l[i]?.bind f := by
  induction l generalizing r i with
  | nil =>
    simp only [mapM_nil, Option.pure_def, Option.some.injEq] at h
    simp [← h]
  | cons a l ih =>
    simp only [mapM_cons, Option.bind_eq_bind, Option.bind_eq_some_iff] at h
    obtain ⟨b, hb, r', hr, h⟩ := h
    rw [← Option.some.inj h]
    cases i with
    | zero => simp [hb]
    | succ i => simpa using ih hr i

theorem exists_of_mapM_eq_some {f : α → Option β} {r : List β} (h : l.mapM f = some r)
    (ha : a ∈ l) : ∃ b, f a = some b := by
  induction l generalizing r with
  | nil => cases ha
  | cons c l ih =>
    simp only [mapM_cons, Option.bind_eq_bind, Option.bind_eq_some_iff] at h
    obtain ⟨b, hb, r', hr, -⟩ := h
    rcases mem_cons.mp ha with rfl | ha
    · exact ⟨b, hb⟩
    · exact ih hr ha

end OwlCore.Fallible
