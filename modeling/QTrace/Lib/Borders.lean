import Mathlib

/-! Longest suffixes in a set of words that holds the prefixes of its members. The longest suffix
after one more letter is found from the longest suffix before it by going from border to border
until the letter fits; so a machine whose states are the words of the set and whose failure links
are the borders reads a text and stays at its longest suffix. -/

namespace QTrace.Lib

variable {α : Type*} {P Q Q' : Set (List α)} {p q u v w : List α} {a : α}

/-- A set of words with all prefixes of its members. -/
structure PrefixClosed (P : Set (List α)) : Prop where
  nil : [] ∈ P
  init : ∀ {w a}, w ++ [a] ∈ P → w ∈ P

/-- `u` is the longest suffix of `w` in the set. -/
structure LongestSuffix (Q : Set (List α)) (w u : List α) : Prop where
  mem : u ∈ Q
  suffix : u <:+ w
  longest : ∀ v ∈ Q, v <:+ w → v <:+ u

/-- The longest suffix in the set besides the word itself. -/
def Border (P : Set (List α)) (w u : List α) : Prop := LongestSuffix (P \ {w}) w u

theorem longestSuffix_self (h : w ∈ Q) : LongestSuffix Q w w := ⟨h, List.suffix_rfl, fun _ _ hv => hv⟩

theorem Border.length_lt (h : Border P w u) : u.length < w.length := by
  refine lt_of_le_of_ne h.suffix.length_le fun heq => h.mem.2 ?_
  exact h.suffix.eq_of_length heq

/-- Following borders from `p` until the letter fits: where the walk stops. -/
structure Stops (P : Set (List α)) (a : α) (p q : List α) : Prop where
  mem : q ∈ P
  suffix : q <:+ p
  fits : q = [] ∨ q ++ [a] ∈ P
  longest : ∀ v ∈ P, v <:+ p → v ++ [a] ∈ P → v <:+ q

theorem stops_self (hp : p ∈ P) (hfits : p = [] ∨ p ++ [a] ∈ P) : Stops P a p p :=
  ⟨hp, List.suffix_rfl, hfits, fun _ _ hv _ => hv⟩

theorem Stops.of_border (hborder : Border P p u) (hfits : p ++ [a] ∉ P) (h : Stops P a u q) : Stops P a p q := by
  refine ⟨h.mem, h.suffix.trans hborder.suffix, h.fits, fun v hv hsuffix hletter => ?_⟩
  have hne : v ≠ p := by
    rintro rfl
    exact hfits hletter
  exact h.longest v hv (hborder.longest v ⟨hv, hne⟩ hsuffix) hletter

theorem Stops.longestSuffix (h : Stops P a p q) (hw : LongestSuffix Q w p) (hnil : [] ∈ Q')
    (hQ : ∀ v, v ++ [a] ∈ Q' ↔ v ∈ Q ∧ v ++ [a] ∈ P) (hsub : Q ⊆ P) (hdown : q ∈ Q) [Decidable (q ++ [a] ∈ P)] :
    LongestSuffix Q' (w ++ [a]) (if q ++ [a] ∈ P then q ++ [a] else []) := by
  have hold : ∀ v ∈ Q', v <:+ w ++ [a] → v = [] ∨ ∃ u, v = u ++ [a] ∧ u <:+ q ∧ u ++ [a] ∈ P := by
    intro v hv hsuffix
    rcases List.suffix_concat_iff.mp hsuffix with rfl | ⟨u, rfl, hu⟩
    · exact .inl rfl
    · obtain ⟨huQ, huP⟩ := (hQ u).mp hv
      exact .inr ⟨u, rfl, h.longest u (hsub huQ) (hw.longest u huQ hu) huP, huP⟩
  split_ifs with hq
  · refine ⟨(hQ q).mpr ⟨hdown, hq⟩, ?_, fun v hv hsuffix => ?_⟩
    · exact List.suffix_concat_iff.mpr (.inr ⟨q, rfl, h.suffix.trans hw.suffix⟩)
    · rcases hold v hv hsuffix with rfl | ⟨u, rfl, hu, -⟩
      · exact List.nil_suffix
      · exact List.suffix_concat_iff.mpr (.inr ⟨u, rfl, hu⟩)
  · refine ⟨hnil, List.nil_suffix, fun v hv hsuffix => ?_⟩
    rcases hold v hv hsuffix with rfl | ⟨u, rfl, hu, huP⟩
    · exact List.nil_suffix
    · -- the walk stopped at the empty word, so no suffix fits
      have hnilq : q = [] := h.fits.resolve_right hq
      subst hnilq
      rw [List.suffix_nil] at hu
      exact absurd (hu ▸ huP) hq

/-- Reading a letter: from the longest suffix of the text to that of the longer text. -/
theorem Stops.read (hclosed : PrefixClosed P) (h : Stops P a p q) (hw : LongestSuffix P w p) [Decidable (q ++ [a] ∈ P)] :
    LongestSuffix P (w ++ [a]) (if q ++ [a] ∈ P then q ++ [a] else []) :=
  h.longestSuffix hw hclosed.nil (fun _ => ⟨fun hv => ⟨hclosed.init hv, hv⟩, And.right⟩) subset_rfl h.mem

/-- The border of a longer word, from the border of the word. -/
theorem Stops.border (hclosed : PrefixClosed P) (h : Stops P a p q) (hw : Border P w p) [Decidable (q ++ [a] ∈ P)] :
    Border P (w ++ [a]) (if q ++ [a] ∈ P then q ++ [a] else []) := by
  have hnil : [] ∈ P \ {w ++ [a]} := ⟨hclosed.nil, by simp⟩
  refine h.longestSuffix hw hnil (fun v => ?_) Set.sdiff_subset ⟨h.mem, ?_⟩
  · constructor
    · rintro ⟨hv, hne⟩
      refine ⟨⟨hclosed.init hv, fun heq => hne ?_⟩, hv⟩
      rw [Set.mem_singleton_iff] at heq ⊢
      rw [heq]
    · rintro ⟨⟨-, hne⟩, hv⟩
      refine ⟨hv, fun heq => hne ?_⟩
      exact List.append_cancel_right heq
  · rintro rfl
    have := h.suffix.length_le
    have := hw.length_lt
    omega

theorem border_singleton (hclosed : PrefixClosed P) (a : α) : Border P [a] [] := by
  refine ⟨⟨hclosed.nil, by simp⟩, List.nil_suffix, ?_⟩
  rintro v ⟨-, hne⟩ hv
  rcases List.suffix_concat_iff.mp (show v <:+ [] ++ [a] from hv) with rfl | ⟨u, rfl, hu⟩
  · exact List.suffix_rfl
  · rw [List.suffix_nil] at hu
    exact absurd (by rw [hu]; rfl) hne

/-- A word of the list ends here. -/
def EndsWith (words : List (List α)) (text : List α) : Prop := ∃ word ∈ words, word <:+ text

variable {words : List (List α)}

theorem LongestSuffix.endsWith_iff (h : LongestSuffix P w u) (hwords : ∀ word ∈ words, word ∈ P) :
    EndsWith words w ↔ EndsWith words u := by
  constructor
  · rintro ⟨word, hword, hsuffix⟩
    exact ⟨word, hword, h.longest word (hwords word hword) hsuffix⟩
  · rintro ⟨word, hword, hsuffix⟩
    exact ⟨word, hword, hsuffix.trans h.suffix⟩

/-- A word ends at a state where the state is the word, or where it ends at the border. -/
theorem Border.endsWith_iff (h : Border P w u) (hwords : ∀ word ∈ words, word ∈ P) :
    EndsWith words w ↔ w ∈ words ∨ EndsWith words u := by
  constructor
  · rintro ⟨word, hword, hsuffix⟩
    by_cases heq : word = w
    · exact .inl (heq ▸ hword)
    · exact .inr ⟨word, hword, h.longest word ⟨hwords word hword, heq⟩ hsuffix⟩
  · rintro (hw | ⟨word, hword, hsuffix⟩)
    · exact ⟨w, hw, List.suffix_rfl⟩
    · exact ⟨word, hword, hsuffix.trans h.suffix⟩

/-- A word occurs in a text where it ends at one of its prefixes. -/
theorem exists_infix_iff {text : List α} :
    (∃ word ∈ words, word <:+: text) ↔ ∃ front, front <+: text ∧ EndsWith words front := by
  constructor
  · rintro ⟨word, hword, hinfix⟩
    obtain ⟨front, hsuffix, hfront⟩ := List.infix_iff_suffix_prefix.mp hinfix
    exact ⟨front, hfront, word, hword, hsuffix⟩
  · rintro ⟨front, hfront, word, hword, hsuffix⟩
    exact ⟨word, hword, hsuffix.isInfix.trans hfront.isInfix⟩

end QTrace.Lib
