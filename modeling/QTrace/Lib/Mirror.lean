import QTrace.Lib.Parser

/-! Two parsers of one format. `Mirrors G f p q` says that `p` accepts an input exactly when `q`
accepts it with a result in `G`, that both then leave the same rest, and that `f` turns the
result of `q` into that of `p`; which errors they report is left open. The relation composes
along `bind`. -/

namespace QTrace.Lib.Parser

variable {ε δ α β γ κ ι : Type}

def Mirrors (G : β → Prop) (f : β → α) (p : Parser ε α) (q : Parser δ β) : Prop :=
  ∀ s a t, p s = .ok (a, t) ↔ ∃ b, q s = .ok (b, t) ∧ G b ∧ f b = a

/-- `p` and `q` accept the same inputs. -/
abbrev MirrorsAll (f : β → α) (p : Parser ε α) (q : Parser δ β) : Prop := Mirrors (fun _ => True) f p q

variable {G : γ → Prop} {f : β → α} {h : γ → κ}

variable {p : Parser ε κ} {q : Parser δ γ} {k : α → Parser ε κ} {l : β → Parser δ γ} {e : ε} {e' : δ}
  {x : Except ε α} {y : Except δ β}

theorem Mirrors.parse (hpq : Mirrors G h p q) {s : List UInt8} {c : κ} :
    p.parse s = .ok c ↔ ∃ b, q.parse s = .ok b ∧ G b ∧ h b = c := by
  simp only [parse_ok, hpq s]
  constructor
  · rintro ⟨t, b, hq, hG, heq⟩
    exact ⟨b, ⟨t, hq⟩, hG, heq⟩
  · rintro ⟨b, ⟨t, hq⟩, hG, heq⟩
    exact ⟨t, b, hq, hG, heq⟩

theorem mirrors_bind {p : Parser ε α} {q : Parser δ β} (hpq : MirrorsAll f p q)
    (hkl : ∀ b, Mirrors G h (k (f b)) (l b)) : Mirrors G h (p >>= k) (q >>= l) := by
  intro s c t
  simp only [bind_ok, hpq s]
  constructor
  · rintro ⟨a, u, ⟨b, hq, -, rfl⟩, hk⟩
    obtain ⟨d, hl, hd⟩ := (hkl b u c t).mp hk
    exact ⟨d, ⟨b, u, hq, hl⟩, hd⟩
  · rintro ⟨d, ⟨b, u, hq, hl⟩, hd⟩
    exact ⟨f b, u, ⟨b, hq, trivial, rfl⟩, (hkl b u c t).mpr ⟨d, hl, hd⟩⟩

theorem mirrors_pure {c : γ} (hc : G c) : Mirrors G h (pure (h c) : Parser ε κ) (pure c : Parser δ γ) := by
  intro s a t
  simp only [pure_ok]
  constructor
  · rintro ⟨rfl, rfl⟩
    exact ⟨c, ⟨rfl, rfl⟩, hc, rfl⟩
  · rintro ⟨b, ⟨rfl, rfl⟩, -, rfl⟩
    exact ⟨rfl, rfl⟩

/-- The parser fails on every input. -/
def Fails (p : Parser ε α) : Prop := ∀ s a t, p s ≠ .ok (a, t)

theorem fails_bind_left {p : Parser ε α} (hp : Fails p) : Fails (p >>= k) := by
  intro s c t hok
  obtain ⟨a, u, ha, -⟩ := bind_ok.mp hok
  exact hp s a u ha

theorem fails_failIf {condition : Bool} (h : condition = true) : Fails (failIf condition e : Parser ε Unit) := by
  intro s a t hok
  rw [(failIf_ok.mp hok).1] at h
  cases h

/-- Every result of the parser is in `P`. -/
def Yields (P : α → Prop) (p : Parser ε α) : Prop := ∀ s a t, p s = .ok (a, t) → P a

theorem yields_bind {P : κ → Prop} {p : Parser ε α} (hk : ∀ a, Yields P (k a)) : Yields P (p >>= k) := by
  intro s c t hok
  obtain ⟨a, u, -, hc⟩ := bind_ok.mp hok
  exact hk a u c t hc

variable {a : α}

theorem yields_pure {P : α → Prop} (ha : P a) : Yields P (pure a : Parser ε α) := by
  intro s b t hok
  exact (pure_ok.mp hok).1 ▸ ha

theorem mirrors_of_fails (hp : Fails p) (hq : Yields (fun b => ¬G b) q) : Mirrors G h p q := by
  intro s a t
  constructor
  · intro hok
    exact absurd hok (hp s a t)
  · rintro ⟨b, hok, hG, -⟩
    exact absurd hG (hq s b t hok)

theorem mirrors_failIf {c d : Bool} (hcd : c = d) (hpq : c = false → Mirrors G h p q) :
    Mirrors G h (failIf c e >>= fun _ => p) (failIf d e' >>= fun _ => q) := by
  subst hcd
  intro s a t
  cases c with
  | true => simp [bind_ok, failIf_ok]
  | false => simpa [bind_ok, failIf_ok] using hpq rfl s a t

theorem mirrors_failIf_right {d : Bool} (hd : d = false) (hpq : Mirrors G h p q) :
    Mirrors G h p (failIf d e' >>= fun _ => q) := by
  subst hd
  intro s a t
  simpa [bind_ok, failIf_ok] using hpq s a t

theorem mirrors_take {size : ℕ} : MirrorsAll id (take e size) (take e' size) := by
  intro s a t
  simp only [take_ok, id, true_and, exists_eq_right]

theorem mirrors_finish : MirrorsAll id (finish e) (finish e') := by
  intro s a t
  simp [finish_ok]

theorem mirrors_map {p : Parser ε α} {q : Parser δ α} {k : α → κ} (hpq : MirrorsAll id p q) :
    MirrorsAll id (k <$> p) (k <$> q) := by
  intro s c t
  simp only [map_ok, hpq s, id, true_and, exists_eq_right]

theorem mirrors_lift (hxy : ∀ a, x = .ok a ↔ ∃ b, y = .ok b ∧ f b = a) :
    MirrorsAll f (liftM x : Parser ε α) (liftM y : Parser δ β) := by
  intro s a t
  simp only [lift_ok, hxy, true_and]
  constructor
  · rintro ⟨⟨b, hy, rfl⟩, rfl⟩
    exact ⟨b, ⟨hy, rfl⟩, rfl⟩
  · rintro ⟨b, ⟨hy, rfl⟩, rfl⟩
    exact ⟨⟨b, hy, rfl⟩, rfl⟩

theorem mirrors_lift_left (hx : x = .ok a) (hkq : Mirrors G h (k a) q) :
    Mirrors G h ((liftM x : Parser ε α) >>= k) q := by
  intro s c t
  rw [bind_ok, ← hkq s c t]
  simp only [lift_ok, hx, Except.ok.injEq]
  constructor
  · rintro ⟨_, _, ⟨rfl, rfl⟩, hk⟩
    exact hk
  · intro hk
    exact ⟨a, s, ⟨rfl, rfl⟩, hk⟩

theorem mirrors_lift_right {b : β} (hy : y = .ok b) (hpl : Mirrors G h p (l b)) :
    Mirrors G h p ((liftM y : Parser δ β) >>= l) := by
  intro s c t
  rw [hpl s c t]
  refine exists_congr fun d => and_congr_left' ?_
  simp only [bind_ok, lift_ok, hy, Except.ok.injEq]
  constructor
  · intro hl
    exact ⟨b, s, ⟨rfl, rfl⟩, hl⟩
  · rintro ⟨_, _, ⟨rfl, rfl⟩, hl⟩
    exact hl

/-- The same list of parsers on both sides, one element through `g`. -/
theorem mirrors_mapM {xs : List ι} {g : ι → κ} {k : κ → Parser ε α} {l : ι → Parser δ β}
    (hkl : ∀ x, MirrorsAll f (k (g x)) (l x)) : MirrorsAll (List.map f) ((xs.map g).mapM k) (xs.mapM l) := by
  induction xs with
  | nil =>
    simp only [List.map_nil, List.mapM_nil]
    exact mirrors_pure (h := List.map f) (c := []) trivial
  | cons x xs ih =>
    simp only [List.map_cons, List.mapM_cons]
    refine mirrors_bind (hkl x) fun b => mirrors_bind ih fun bs => ?_
    exact mirrors_pure (h := List.map f) (c := b :: bs) trivial

theorem mirrors_times {p : Parser ε α} {q : Parser δ β} (hpq : MirrorsAll f p q) (count : ℕ) :
    MirrorsAll (List.map f) (p.times count) (q.times count) := by
  induction count with
  | zero => exact mirrors_pure (h := List.map f) (c := []) trivial
  | succ count ih =>
    refine mirrors_bind hpq fun b => mirrors_bind ih fun bs => ?_
    exact mirrors_pure (h := List.map f) (c := b :: bs) trivial

end QTrace.Lib.Parser
