import Codemod.Receiver
import Codemod.Recipe.Rename
import Mathlib.Data.List.Infix

/-!
# Respelled texts

A text is respelled when parts of it give way to other texts. Here the parts are occurrences of an
old word, which gives way to a new one and may stay behind it. A respelled text without the new word
in it is the text itself, and characters that neither word has cut both texts at the same places.
So a respelled text denotes a value only if the text did, unless a name of the value has the new
word in it where the text has the old one.
-/

namespace Codemod

/-- A text, and what it becomes when some of its parts change. -/
inductive Respelled (change : List Char → List Char → Prop) : List Char → List Char → Prop where
  | nil : Respelled change [] []
  | same (c : Char) {s t : List Char} (h : Respelled change s t) :
    Respelled change (c :: s) (c :: t)
  | changed {a b s t : List Char} (hab : change a b) (h : Respelled change s t) :
    Respelled change (a ++ s) (b ++ t)

/-- The old word gives way to the new one, and may stay behind it. -/
inductive Spelling (old new : List Char) : List Char → List Char → Prop where
  | renamed : Spelling old new old new
  | kept : Spelling old new old (new ++ ", ".toList ++ old)

namespace Respelled

variable {change : List Char → List Char → Prop} {old new s t : List Char} {x : Char}

theorem append_left (u : List Char) (h : Respelled change s t) :
  Respelled change (u ++ s) (u ++ t)
  := by
  induction u with
  | nil => apply h
  | cons c u ih => apply Respelled.same c ih

theorem append {s' t' : List Char} (h : Respelled change s t) (h' : Respelled change s' t') :
  Respelled change (s ++ s') (t ++ t')
  := by
  induction h with
  | nil => apply h'
  | same c _ ih => apply Respelled.same c ih
  | changed hab _ ih =>
    rw [List.append_assoc, List.append_assoc]
    apply Respelled.changed hab ih

theorem refl (s : List Char) :
  Respelled change s s
  := by
  have hnil : Respelled change [] [] := .nil
  simpa using hnil.append_left s

theorem symm (h : Respelled change s t) :
  Respelled (fun a b => change b a) t s
  := by
  induction h with
  | nil => apply Respelled.nil
  | same c _ ih => apply Respelled.same c ih
  | changed hab _ ih => exact @Respelled.changed (fun a b => change b a) _ _ _ _ hab ih

/-! ### Cuts -/

/-- A character in the second part of a text that is not in the first one. -/
theorem exists_of_append_eq {u v w z : List Char} (h : u ++ v = w ++ x :: z) (hx : x ∉ u) :
  ∃ w', w = u ++ w' ∧ v = w' ++ x :: z
  := by
  rcases List.append_eq_append_iff.mp h with ⟨w', hw, hv⟩ | ⟨u', hu, hv⟩
  · exact ⟨w', hw, hv⟩
  · cases u' with
    | nil => exact ⟨[], by simp [hu], by simpa using hv.symm⟩
    | cons y u' =>
      rw [List.cons_append] at hv
      obtain ⟨rfl, -⟩ := List.cons.inj hv
      apply absurd _ hx
      rw [hu]
      simp

/-- A text is cut where the respelled text has a character that no change brings in. -/
theorem cut (h : Respelled change s t) (hx : ∀ a b, change a b → x ∉ b) {t₁ t₂ : List Char}
    (ht : t = t₁ ++ x :: t₂) :
  ∃ s₁ s₂, s = s₁ ++ x :: s₂ ∧ Respelled change s₁ t₁ ∧ Respelled change s₂ t₂
  := by
  induction h generalizing t₁ with
  | nil =>
    have := congrArg List.length ht
    simp at this
  | @same c s t h ih =>
    cases t₁ with
    | nil =>
      obtain ⟨rfl, rfl⟩ := List.cons.inj ht
      exact ⟨[], s, rfl, .nil, h⟩
    | cons y t₁ =>
      obtain ⟨rfl, rfl⟩ := List.cons.inj ht
      obtain ⟨s₁, s₂, rfl, h₁, h₂⟩ := ih rfl
      exact ⟨c :: s₁, s₂, rfl, .same c h₁, h₂⟩
  | @changed a b s t hab h ih =>
    obtain ⟨w, rfl, rfl⟩ := exists_of_append_eq ht (hx a b hab)
    obtain ⟨s₁, s₂, rfl, h₁, h₂⟩ := ih rfl
    exact ⟨a ++ s₁, s₂, by simp, .changed hab h₁, h₂⟩

/-! ### One word for another -/

/-- A respelled text is the text itself, or differs first where the new word stands for the old
one. -/
theorem eq_or (h : Respelled (Spelling old new) s t) :
  s = t ∨ ∃ u v, t = u ++ new ++ v ∧ (u ++ old) <+: s
  := by
  induction h with
  | nil => apply Or.inl rfl
  | same c h ih =>
    rcases ih with rfl | ⟨u, v, rfl, hs⟩
    · apply Or.inl rfl
    · exact .inr ⟨c :: u, v, rfl, List.cons_prefix_cons.mpr ⟨rfl, hs⟩⟩
  | @changed a b s t hab h ih =>
    apply Or.inr
    cases hab with
    | renamed => exact ⟨[], t, rfl, List.prefix_append old s⟩
    | kept => exact ⟨[], ", ".toList ++ old ++ t, by simp, List.prefix_append old s⟩

theorem eq_of_old (h : Respelled (Spelling old new) s t) (hold : ¬ old <:+: s) :
  s = t
  := by
  rcases h.eq_or with heq | ⟨u, v, -, hs⟩
  · apply heq
  · apply absurd _ hold
    apply List.IsInfix.trans _ hs.isInfix
    apply (List.suffix_append u old).isInfix

theorem eq_of_new (h : Respelled (Spelling old new) s t) (hnew : ¬ new <:+: t) :
  s = t
  := by
  rcases h.eq_or with heq | ⟨u, v, rfl, -⟩
  · apply heq
  · apply absurd (List.infix_append u new v) hnew

end Respelled

/-- A character that is in neither word. -/
structure Spelling.Foreign (old new : List Char) (x : Char) : Prop where
  old : x ∉ old
  new : x ∉ new
  comma : x ∉ ", ".toList

namespace Respelled

variable {old new s t w : List Char} {x : Char}

theorem cut_foreign (h : Respelled (Spelling old new) s t) (hx : Spelling.Foreign old new x)
    (t₁ t₂ : List Char) (ht : t = t₁ ++ x :: t₂) :
  ∃ s₁ s₂, s = s₁ ++ x :: s₂ ∧ Respelled (Spelling old new) s₁ t₁
    ∧ Respelled (Spelling old new) s₂ t₂
  := by
  apply h.cut _ ht
  intro a b hab
  cases hab with
  | renamed => apply hx.new
  | kept =>
    simp only [List.mem_append, not_or]
    exact ⟨⟨hx.new, hx.comma⟩, hx.old⟩

theorem cut_foreign_old (h : Respelled (Spelling old new) s t) (hx : Spelling.Foreign old new x)
    {s₁ s₂ : List Char} (hs : s = s₁ ++ x :: s₂) :
  ∃ t₁ t₂, t = t₁ ++ x :: t₂ ∧ Respelled (Spelling old new) s₁ t₁
    ∧ Respelled (Spelling old new) s₂ t₂
  := by
  have hold : ∀ a b, Spelling old new b a → x ∉ b := by
    intro a b hab
    cases hab <;> apply hx.old
  obtain ⟨t₁, t₂, ht, h₁, h₂⟩ := h.symm.cut hold hs
  exact ⟨t₁, t₂, ht, h₁.symm, h₂.symm⟩

/-! ### Endings -/

theorem not_infix_of_foreign (hnew : new ≠ []) (hw : ∀ x ∈ w, Spelling.Foreign old new x) :
  ¬ new <:+: w
  := by
  intro h
  obtain ⟨x, hx⟩ := List.exists_mem_of_ne_nil new hnew
  apply (hw x (h.subset hx)).new hx

/-- A text has the endings of foreign characters that the respelled text has. -/
theorem cut_ending (h : Respelled (Spelling old new) s t) (hnew : new ≠ [])
    (hw : ∀ x ∈ w, Spelling.Foreign old new x) {t₁ : List Char} (ht : t = t₁ ++ w) :
  ∃ s₁, s = s₁ ++ w ∧ Respelled (Spelling old new) s₁ t₁
  := by
  cases w with
  | nil => exact ⟨s, by simp, by simpa [ht] using h⟩
  | cons x w =>
    obtain ⟨hx, hw⟩ := List.forall_mem_cons.mp hw
    obtain ⟨s₁, s₂, rfl, h₁, h₂⟩ := h.cut_foreign hx t₁ w ht
    rw [h₂.eq_of_new (not_infix_of_foreign hnew hw)]
    exact ⟨s₁, rfl, h₁⟩

/-- A respelled text has the endings of foreign characters that the text has. -/
theorem cut_ending_old (h : Respelled (Spelling old new) s t) (hold : old ≠ [])
    (hw : ∀ x ∈ w, Spelling.Foreign old new x) {s₁ : List Char} (hs : s = s₁ ++ w) :
  ∃ t₁, t = t₁ ++ w ∧ Respelled (Spelling old new) s₁ t₁
  := by
  cases w with
  | nil => exact ⟨t, by simp, by simpa [hs] using h⟩
  | cons x w =>
    obtain ⟨hx, hw⟩ := List.forall_mem_cons.mp hw
    obtain ⟨t₁, t₂, rfl, h₁, h₂⟩ := h.cut_foreign_old hx hs
    have hnone : ¬ old <:+: w := by
      intro hpart
      obtain ⟨y, hy⟩ := List.exists_mem_of_ne_nil old hold
      apply (hw y (hpart.subset hy)).old hy
    rw [← h₂.eq_of_old hnone]
    exact ⟨t₁, rfl, h₁⟩

end Respelled

/-! ### Receivers -/

namespace Receiver

open Respelled

theorem dropEnding?_eq_some {ending text front : List Char} :
  dropEnding? ending text = some front ↔ text = front ++ ending
  := by
  rw [dropEnding?, Option.ite_none_right_eq_some, List.isSuffixOf_iff_suffix, Option.some.injEq]
  constructor
  · rintro ⟨⟨u, rfl⟩, rfl⟩
    simp
  · rintro rfl
    simp

theorem splitFinalBreak_eq (text : List Char) :
  splitFinalBreak text = match dropEnding? ['\n'] text with
    | some front => (front, ['\n'])
    | none => (text, [])
  := by
  rw [splitFinalBreak]
  cases h : dropEnding? ['\n'] text with
  | some front =>
    rw [dropEnding?_eq_some.mp h]
    simp
  | none =>
    rw [if_neg]
    intro hlast
    obtain ⟨front, rfl⟩ := List.getLast?_eq_some_iff.mp hlast
    rw [dropEnding?_eq_some.mpr rfl] at h
    cases h

/-- The signs that decide what a text denotes are foreign to both words. -/
structure Apart (old new : List Char) : Prop where
  old_ne : old ≠ []
  new_ne : new ≠ []
  signs : ∀ x ∈ ".?()\n".toList, Spelling.Foreign old new x
  own : ¬ new <:+: "this".toList

variable {old new s t : List Char}

/-- An ending is there or not in both texts. -/
theorem dropEnding?_respelled (ending : List Char) (hwords : Apart old new)
    (h : Respelled (Spelling old new) s t) (hending : ending ⊆ ".?()\n".toList) :
  (∃ s₁ t₁, dropEnding? ending s = some s₁ ∧ dropEnding? ending t = some t₁
    ∧ Respelled (Spelling old new) s₁ t₁ ∧ s₁ <+: s)
  ∨ dropEnding? ending s = none ∧ dropEnding? ending t = none
  := by
  have hforeign : ∀ x ∈ ending, Spelling.Foreign old new x :=
    fun x hx => hwords.signs x (hending hx)
  cases ht : dropEnding? ending t with
  | some t₁ =>
    obtain ⟨s₁, rfl, h₁⟩ := h.cut_ending hwords.new_ne hforeign (dropEnding?_eq_some.mp ht)
    exact .inl ⟨s₁, t₁, dropEnding?_eq_some.mpr rfl, rfl, h₁, List.prefix_append s₁ ending⟩
  | none =>
    apply Or.inr
    cases hs : dropEnding? ending s with
    | none => exact ⟨rfl, rfl⟩
    | some s₁ =>
      obtain ⟨t₁, rfl, -⟩ := h.cut_ending_old hwords.old_ne hforeign (dropEnding?_eq_some.mp hs)
      rw [dropEnding?_eq_some.mpr rfl] at ht
      cases ht

/-- A line feed at the end is split off from both texts. -/
theorem splitFinalBreak_respelled (hwords : Apart old new)
    (h : Respelled (Spelling old new) s t) :
  ∃ s₁ t₁ w, splitFinalBreak s = (s₁, w) ∧ splitFinalBreak t = (t₁, w)
    ∧ Respelled (Spelling old new) s₁ t₁ ∧ s₁ <+: s
  := by
  rw [splitFinalBreak_eq, splitFinalBreak_eq]
  rcases dropEnding?_respelled ['\n'] hwords h (by decide) with
    ⟨s₁, t₁, hs, ht, h₁, hfront⟩ | ⟨hs, ht⟩
  · exact ⟨s₁, t₁, ['\n'], by rw [hs], by rw [ht], h₁, hfront⟩
  · exact ⟨s, t, [], by rw [hs], by rw [ht], h, List.prefix_refl s⟩

/-- Two texts with one ending, the first of them with a beginning of a text respelled. -/
def Follows (old new s f g : List Char) : Prop :=
  ∃ f₁ g₁ w, f = f₁ ++ w ∧ g = g₁ ++ w ∧ Respelled (Spelling old new) f₁ g₁ ∧ f₁ <+: s

theorem stripOptional_respelled (hwords : Apart old new) (h : Respelled (Spelling old new) s t) :
  Follows old new s (stripOptional s) (stripOptional t)
  := by
  obtain ⟨s₁, t₁, w, hs, ht, h₁, hfront⟩ := splitFinalBreak_respelled hwords h
  simp only [stripOptional, hs, ht]
  rcases dropEnding?_respelled ['?'] hwords h₁ (by decide) with
    ⟨s₂, t₂, hs, ht, h₂, hfront₂⟩ | ⟨hs, ht⟩
  · exact ⟨s₂, t₂, w, by rw [hs]; rfl, by rw [ht]; rfl, h₂, hfront₂.trans hfront⟩
  · exact ⟨s₁, t₁, w, by rw [hs]; rfl, by rw [ht]; rfl, h₁, hfront⟩

theorem called?_respelled (hwords : Apart old new) (h : Respelled (Spelling old new) s t)
    {g : List Char} (hg : called? t = some g) :
  ∃ f, called? s = some f ∧ Follows old new s f g
  := by
  obtain ⟨s₁, t₁, w, hs, ht, h₁, hfront⟩ := splitFinalBreak_respelled hwords h
  simp only [called?, hs, ht] at hg ⊢
  rcases dropEnding?_respelled "()?".toList hwords h₁ (by decide) with
    ⟨s₂, t₂, hs, ht, h₂, hfront₂⟩ | ⟨hs, ht⟩
  · rw [ht] at hg
    cases hg
    exact ⟨s₂ ++ w, by rw [hs]; rfl, s₂, t₂, w, rfl, rfl, h₂, hfront₂.trans hfront⟩
  · rw [ht] at hg
    rw [hs]
    rcases dropEnding?_respelled "()".toList hwords h₁ (by decide) with
      ⟨s₂, t₂, hs, ht, h₂, hfront₂⟩ | ⟨hs, ht⟩
    · rw [ht] at hg
      cases hg
      exact ⟨s₂ ++ w, by rw [hs]; rfl, s₂, t₂, w, rfl, rfl, h₂, hfront₂.trans hfront⟩
    · rw [ht] at hg
      cases hg

/-- No name has the new word in it where the text has the old one. -/
def NamesApart (old new text : List Char) (names : List (List Char)) : Prop :=
  ∀ u v, u ++ new ++ v ∈ names → ¬ (u ++ old) <:+: text

/-- What a part of the text becomes is a name only if it stays the same. -/
theorem NamesApart.eq_of_mem {text f g w : List Char} {names : List (List Char)}
    (hnames : NamesApart old new text names) (h : Respelled (Spelling old new) f g)
    (hf : f <:+: text) (hg : g ++ w ∈ names) :
  f = g
  := by
  rcases h.eq_or with heq | ⟨u, v, rfl, hfront⟩
  · apply heq
  · apply absurd (hfront.isInfix.trans hf)
    apply hnames u (v ++ w)
    simpa using hg

theorem NamesApart.mem_of_follows {text f g : List Char} {names : List (List Char)}
    (hnames : NamesApart old new text names) (hs : s <:+: text) (h : Follows old new s f g)
    (hg : g ∈ names) :
  f ∈ names
  := by
  obtain ⟨f₁, g₁, w, rfl, rfl, h₁, hfront⟩ := h
  rwa [hnames.eq_of_mem h₁ (hfront.isInfix.trans hs) hg]

/-- A text is a property of `this` with a name if what it becomes is so. -/
theorem isOwn_respelled {text name : List Char} {names : List (List Char)}
    (hwords : Apart old new) (hnames : NamesApart old new text names)
    (h : Respelled (Spelling old new) s t) (hs : s <:+: text) (hname : name ∈ names)
    (ht : isOwn t name = true) :
  isOwn s name = true
  := by
  have hdot : Spelling.Foreign old new '.' := hwords.signs '.' (by decide)
  have hmark : Spelling.Foreign old new '?' := hwords.signs '?' (by decide)
  have hthis {s' : List Char} (h : Respelled (Spelling old new) s' "this".toList) :
      s' = "this".toList := h.eq_of_new hwords.own
  have hsame {f : List Char} (h : Respelled (Spelling old new) f name) (hf : f <:+: s) : f = name :=
    hnames.eq_of_mem (w := []) h (hf.trans hs) (by simpa using hname)
  have hnil {f : List Char} (h : Respelled (Spelling old new) f []) : f = [] :=
    h.eq_of_new (by simpa using hwords.new_ne)
  simp only [isOwn, Bool.or_eq_true, decide_eq_true_iff] at ht
  rcases ht with ((ht | ht) | ht) | ht
  · obtain ⟨s₁, s₂, rfl, h₁, h₂⟩ := h.cut_foreign hdot "this".toList name ht
    rw [hthis h₁, hsame h₂ ((List.suffix_cons _ _).trans (List.suffix_append _ _)).isInfix]
    simp [isOwn]
  · obtain ⟨rest, rfl⟩ := List.isPrefixOf_iff_prefix.mp ht
    obtain ⟨s₁, s₂, rfl, h₁, h₂⟩ := h.cut_foreign hdot "this".toList
      (name ++ '.' :: rest) (by simp)
    obtain ⟨s₃, s₄, rfl, h₃, -⟩ := h₂.cut_foreign hdot name rest rfl
    have hpart : s₃ <:+: s₁ ++ '.' :: (s₃ ++ '.' :: s₄) :=
      ⟨s₁ ++ ['.'], '.' :: s₄, by simp⟩
    rw [hthis h₁, hsame h₃ hpart]
    simp [isOwn]
  · obtain ⟨s₁, s₂, rfl, h₁, h₂⟩ := h.cut_foreign hmark "this".toList
      ('.' :: name) ht
    obtain ⟨s₃, s₄, rfl, h₃, h₄⟩ := h₂.cut_foreign hdot [] _ rfl
    have hpart : s₄ <:+: s₁ ++ '?' :: (s₃ ++ '.' :: s₄) :=
      ⟨s₁ ++ '?' :: (s₃ ++ ['.']), [], by simp⟩
    rw [hthis h₁, hnil h₃, hsame h₄ hpart]
    simp [isOwn]
  · obtain ⟨s₁, s₂, rfl, h₁, h₂⟩ := h.cut_foreign hmark "this".toList
      ('.' :: (name ++ ['?'])) (by simpa using ht)
    obtain ⟨s₃, s₄, rfl, h₃, h₄⟩ := h₂.cut_foreign hdot [] _ rfl
    obtain ⟨s₅, s₆, rfl, h₅, h₆⟩ := h₄.cut_foreign hmark name [] rfl
    have hpart : s₅ <:+: s₁ ++ '?' :: (s₃ ++ '.' :: (s₅ ++ '?' :: s₆)) :=
      ⟨s₁ ++ '?' :: (s₃ ++ ['.']), '?' :: s₆, by simp⟩
    rw [hthis h₁, hnil h₃, hsame h₅ hpart, hnil h₆]
    simp [isOwn]

/-- What a text becomes denotes the value only if the text did, when its names are apart and a
function that comes to mention the value did so before. -/
theorem reaches_respelled {text : List Char} {r r' : Receiver} (hwords : Apart old new)
    (hnames : NamesApart old new text r.aliases) (haliases : ∀ x ∈ r'.aliases, x ∈ r.aliases)
    (hroot : r'.rootName = r.rootName) (hstrict : r'.strict = r.strict)
    (hindirections : r'.indirections = [])
    (hmentions : ∀ f g, Respelled (Spelling old new) f g → r.mentions g = true →
      r.mentions f = true)
    (h : Respelled (Spelling old new) s t) (hs : s <:+: text) (ht : r'.reaches t = true) :
  r.reaches s = true
  := by
  have hmentions' (g : List Char) : r'.mentions g = r.mentions g := by
    rw [mentions, mentions, hroot]
  simp only [reaches, Bool.or_eq_true, List.contains_iff_mem] at ht ⊢
  rcases ht with ((ht | ht) | ht) | ht
  · have hsame := hnames.eq_of_mem (w := []) h hs (by simpa using haliases t ht)
    rw [hsame]
    exact .inl (.inl (.inl (haliases t ht)))
  · have hfollows := stripOptional_respelled hwords h
    exact .inl (.inl (.inr (hnames.mem_of_follows hs hfollows (haliases _ ht))))
  · obtain ⟨g, hg, hreturns⟩ := (Option.any_eq_true _ _).mp ht
    obtain ⟨f, hf, hfollows⟩ := called?_respelled hwords h hg
    refine .inl (.inr ((Option.any_eq_true _ _).mpr ⟨f, hf, ?_⟩))
    simp only [returns, Bool.or_eq_true, Bool.and_eq_true, List.contains_iff_mem, hindirections,
      List.not_mem_nil, or_false, hstrict, hmentions'] at hreturns ⊢
    rcases hreturns with hmem | ⟨hstrict, hmention⟩
    · exact .inl (.inl (hnames.mem_of_follows hs hfollows (haliases _ hmem)))
    · obtain ⟨f₁, g₁, w, rfl, rfl, h₁, -⟩ := hfollows
      exact .inr ⟨hstrict, hmentions _ _ (h₁.append (.refl w)) hmention⟩
  · obtain ⟨name, hname, hown⟩ := List.any_eq_true.mp ht
    have hname := haliases name hname
    exact .inr (List.any_eq_true.mpr ⟨name, hname, isOwn_respelled hwords hnames h hs hname hown⟩)

/-! ### Functions that mention the value -/

theorem occursIn_iff {part text : List Char} :
  Text.occursIn part text = true ↔ part <:+: text
  := by
  induction text with
  | nil => simp [Text.occursIn]
  | cons c cs ih =>
    rw [Text.occursIn, Bool.or_eq_true, ih, List.infix_cons_iff, List.isPrefixOf_iff_prefix]

/-- The lower-case form of a word of ASCII letters does not depend on what stands around it. -/
theorem lowerAfter_ascii {word : List Char} (h : word.all (·.toNat < 0x80) = true)
    (before rest : List Char) :
  Text.lowerAfter before (word ++ rest)
    = word.map Char.toLower ++ Text.lowerAfter (word.reverse ++ before) rest
  := by
  induction word generalizing before with
  | nil => rfl
  | cons c cs ih =>
    rw [List.all_cons, Bool.and_eq_true, decide_eq_true_iff] at h
    obtain ⟨hc, hcs⟩ := h
    have hsigma : c.toNat ≠ 0x3A3 := by omega
    simp [Text.lowerAfter, Text.lowerChar, hc, hsigma, ih hcs]

/-- What is found of the name `api` in a text, or of its last letters at the front, is found in
another one. -/
structure Finds (x y : List Char) : Prop where
  name : ['a', 'p', 'i'] <:+: y → ['a', 'p', 'i'] <:+: x
  lastTwo : ['p', 'i'] <+: y → ['p', 'i'] <+: x
  last : ['i'] <+: y → ['i'] <+: x

theorem Finds.cons {x y : List Char} (h : Finds x y) (z : Char) :
  Finds (z :: x) (z :: y)
  := by
  constructor
  · simp only [List.infix_cons_iff, List.cons_prefix_cons]
    rintro (⟨hz, hy⟩ | hy)
    · exact .inl ⟨hz, h.lastTwo hy⟩
    · exact .inr (h.name hy)
  · simp only [List.cons_prefix_cons]
    exact fun ⟨hz, hy⟩ => ⟨hz, h.last hy⟩
  · simp only [List.cons_prefix_cons]
    exact fun ⟨hz, _⟩ => ⟨hz, List.nil_prefix⟩

theorem Finds.append {x y : List Char} (h : Finds x y) (w : List Char) :
  Finds (w ++ x) (w ++ y)
  := by
  induction w with
  | nil => apply h
  | cons z w ih => apply ih.cons z

/-- A text in which nothing of the name can start may be put in front, for any other text. -/
theorem Finds.front {x y : List Char} (h : Finds x y) (u : List Char) {v : List Char}
    (hname : ['a', 'p', 'i'] <:+: v ++ y → ['a', 'p', 'i'] <:+: y)
    (hfirst : ∀ c, v.head? = some c → c ≠ 'p' ∧ c ≠ 'i') (hne : v ≠ []) :
  Finds (u ++ x) (v ++ y)
  := by
  obtain ⟨c, v, rfl⟩ := List.exists_cons_of_ne_nil hne
  obtain ⟨hp, hi⟩ := hfirst c rfl
  constructor
  · intro hy
    apply (h.name (hname hy)).trans (List.suffix_append u x).isInfix
  · intro hy
    rw [List.cons_append, List.cons_prefix_cons] at hy
    apply absurd hy.1.symm hp
  · intro hy
    rw [List.cons_append, List.cons_prefix_cons] at hy
    apply absurd hy.1.symm hi

/-- What is found in the lower-case form of a respelled text is found in that of the text. -/
theorem finds_lowerAfter {s t : List Char}
    (h : Respelled (Spelling "smartGrid".toList "action".toList) s t) (before before' : List Char) :
  Finds (Text.lowerAfter before s) (Text.lowerAfter before' t)
  := by
  have hold : "smartGrid".toList.all (·.toNat < 0x80) = true := by decide
  have hnew : "action".toList.all (·.toNat < 0x80) = true := by decide
  have hboth : ("action".toList ++ ", ".toList ++ "smartGrid".toList).all (·.toNat < 0x80)
      = true := by decide
  induction h generalizing before before' with
  | nil => exact ⟨id, id, id⟩
  | @same c s t h ih =>
    rw [Text.lowerAfter, Text.lowerAfter]
    by_cases hc : c.toNat = 0x3A3
    · -- Which form a capital sigma takes depends on its neighbours; neither is in the name.
      have hsigma : Text.lowerChar c = [Char.ofNat 0x3C3] := by
        rw [← Char.ofNat_toNat c, hc]
        decide +kernel
      have hforms : ∀ z ∈ [[Char.ofNat 0x3C2], [Char.ofNat 0x3C3]],
          Finds (Text.lowerAfter (c :: before) s) (Text.lowerAfter (c :: before') t) →
          ∀ u, Finds (u ++ Text.lowerAfter (c :: before) s)
            (z ++ Text.lowerAfter (c :: before') t) := by
        intro z hz hfinds u
        simp only [List.mem_cons, List.not_mem_nil, or_false] at hz
        rcases hz with rfl | rfl
        · apply hfinds.front u _ _ (by simp)
          · simp [List.infix_cons_iff, List.cons_prefix_cons]
          · simp
        · apply hfinds.front u _ _ (by simp)
          · simp [List.infix_cons_iff, List.cons_prefix_cons]
          · simp
      apply hforms _ _ (ih _ _)
      rw [hsigma]
      split <;> simp
    · simp only [hc, decide_false, Bool.false_and, Bool.false_eq_true, if_false]
      apply (ih _ _).append
  | @changed a b s t hab h ih =>
    cases hab with
    | renamed =>
      rw [lowerAfter_ascii hold, lowerAfter_ascii hnew]
      apply (ih _ _).front
      · simp [List.infix_cons_iff, List.cons_prefix_cons]
      · simp
      · simp
    | kept =>
      rw [lowerAfter_ascii hold, lowerAfter_ascii hboth]
      apply (ih _ _).front
      · simp [List.infix_cons_iff, List.cons_prefix_cons]
      · simp
      · simp

end Receiver

end Codemod
