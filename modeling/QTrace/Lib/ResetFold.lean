import Mathlib

/-! Folds of fallible steps that may forget the past. Behind a step that forgets, the fold
does not depend on what came before it, so that it can be started there from any state. -/

namespace QTrace.Lib

variable {η α β : Type} {x : Except η α} {f : α → Except η β} {b : β} {l : List α} {l' : List β}

theorem bind_eq_ok : x >>= f = .ok b ↔ ∃ a, x = .ok a ∧ f a = .ok b := by
  cases x <;> simp [bind, Except.bind]

variable {a : α}

theorem ok_bind (hx : x = .ok a) (hf : f a = .ok b) : x >>= f = .ok b := bind_eq_ok.mpr ⟨a, hx, hf⟩

theorem bind_of_ok (h : x = .ok a) (f : α → Except η β) : x >>= f = f a := by
  rw [h]
  rfl

theorem pure_eq_ok {b : α} : (pure a : Except η α) = .ok b ↔ a = b := by
  simp [pure, Except.pure]

theorem seq_eq_ok {x y : Except η Unit} : (x >>= fun _ => y) = .ok () ↔ x = .ok () ∧ y = .ok () := by
  cases x <;> simp [bind, Except.bind]

theorem forM_eq_ok {f : α → Except η Unit} : l.forM f = .ok () ↔ ∀ a ∈ l, f a = .ok () := by
  induction l with
  | nil => simp [pure, Except.pure]
  | cons a l ih => rw [List.forM, seq_eq_ok, List.forall_mem_cons, ih]

/-- A list of fallible results comes out where each of them does. -/
theorem mapM_eq_ok : l.mapM f = .ok l' ↔ List.Forall₂ (fun a b => f a = .ok b) l l' := by
  induction l generalizing l' with
  | nil =>
    rw [List.mapM_nil, pure_eq_ok, List.forall₂_nil_left_iff]
    exact eq_comm
  | cons a l ih =>
    simp only [List.mapM_cons, bind_eq_ok, pure_eq_ok, ih, List.forall₂_cons_left_iff]
    exact ⟨fun ⟨b, hb, bs, hbs, h⟩ => ⟨b, bs, hb, hbs, h.symm⟩, fun ⟨b, bs, hb, hbs, h⟩ => ⟨b, hb, bs, hbs, h.symm⟩⟩

theorem exists_mapM_ok (h : ∀ a ∈ l, ∃ b, f a = .ok b) : ∃ l', l.mapM f = .ok l' := by
  induction l with
  | nil => exact ⟨[], rfl⟩
  | cons a l ih =>
    obtain ⟨b, hb⟩ := h a List.mem_cons_self
    obtain ⟨l', hl'⟩ := ih fun c hc => h c (List.mem_cons_of_mem _ hc)
    exact ⟨b :: l', mapM_eq_ok.mpr (.cons hb (mapM_eq_ok.mp hl'))⟩

theorem mem_of_mapM_ok (h : l.mapM f = .ok l') (hb : b ∈ l') : ∃ a ∈ l, f a = .ok b := by
  have hall := mapM_eq_ok.mp h
  clear h
  induction hall with
  | nil => simp at hb
  | cons hfirst hrest ih =>
    rcases List.mem_cons.mp hb with rfl | hb
    · exact ⟨_, List.mem_cons_self, hfirst⟩
    · obtain ⟨a, ha, hf⟩ := ih hb
      exact ⟨a, List.mem_cons_of_mem _ ha, hf⟩

theorem map_of_mapM_ok {γ : Type} (h : l.mapM f = .ok l') {g : α → γ} {k : β → γ}
    (hk : ∀ a b, f a = .ok b → k b = g a) : l'.map k = l.map g := by
  have hall := mapM_eq_ok.mp h
  clear h
  induction hall with
  | nil => rfl
  | cons hfirst hrest ih => rw [List.map_cons, List.map_cons, hk _ _ hfirst, ih]

variable {σ ε η : Type} {step : σ → ε → Except η σ} {s t : σ} {before : List ε}

theorem foldlM_append_ok (hb : before.foldlM step s = .ok t) (after : List ε) :
    (before ++ after).foldlM step s = after.foldlM step t := by
  rw [List.foldlM_append, hb]
  rfl

theorem foldlM_ok_of_append {after : List ε} (h : (before ++ after).foldlM step s = .ok t) :
    ∃ u, before.foldlM step s = .ok u ∧ after.foldlM step u = .ok t := by
  rw [List.foldlM_append] at h
  exact bind_eq_ok.mp h

/-- What holds of the elements done so far and the state, step after step, holds at the end. -/
theorem foldlM_rule {l : List ε} (P : List ε → σ → Prop) (h0 : P [] s)
    (hstep : ∀ before e after s s', l = before ++ e :: after → P before s → step s e = .ok s' →
      P (before ++ [e]) s') (h : l.foldlM step s = .ok t) : P l t := by
  suffices ∀ after before s, l = before ++ after → P before s → after.foldlM step s = .ok t → P l t from
    this l [] s rfl h0 h
  intro after
  induction after with
  | nil =>
    intro before s hl hP hs
    obtain rfl := pure_eq_ok.mp hs
    rwa [hl, List.append_nil]
  | cons e after ih =>
    intro before s hl hP hs
    rw [List.foldlM_cons] at hs
    obtain ⟨s', he, hs⟩ := bind_eq_ok.mp hs
    exact ih (before ++ [e]) s' (by simp [hl]) (hstep before e after s s' hl hP he) hs

variable (step)

/-- The step does not look at the state. -/
def Forgets (e : ε) : Prop := ∀ s s', step s e = step s' e

variable {step} {e : ε}

theorem Forgets.foldlM_cons (h : Forgets step e) (s s' : σ) (after : List ε) :
    (e :: after).foldlM step s = (e :: after).foldlM step s' := by
  rw [List.foldlM_cons, List.foldlM_cons, h s s']

/-- A fold that reaches a forgetful last step is that step. -/
theorem Forgets.foldlM_concat (h : Forgets step e) (hb : before.foldlM step s = .ok t) (s' : σ) :
    (before ++ [e]).foldlM step s = step s' e := by
  rw [foldlM_append_ok hb, h.foldlM_cons t s', List.foldlM_cons]
  cases step s' e <;> rfl

end QTrace.Lib
