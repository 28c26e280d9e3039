import Codemod.Proofs.Reindent

/-!
# Reindenting lines that end with a carriage return

A text with line feeds and the same text with a carriage return before each line feed have the same
lines, but for the carriage returns. Both are reindented alike when no line of spaces and tabs is
shorter than the margin. A carriage return behind such a line makes it a line like any other, and
its spaces and tabs limit the margin.
-/

namespace Codemod

namespace Text

/-! ### Carriage returns -/

/-- A text with a carriage return before every line feed. -/
def withReturns (cs : List Char) : List Char :=
  cs.flatMap fun c => if c = '\n' then ['\r', '\n'] else [c]

/-- Lines with a carriage return at the end of each but the last one. -/
def returned (lines : List (List Char)) : List (List Char) :=
  lines.dropLast.map (· ++ ['\r']) ++ lines.getLast?.toList

theorem withReturns_append_break (s t : List Char) :
  withReturns (s ++ '\n' :: t) = withReturns s ++ ['\r'] ++ '\n' :: withReturns t
  := by
  rw [withReturns, List.flatMap_append, List.flatMap_cons, if_pos rfl, List.append_assoc]
  rfl

theorem withReturns_of_not_mem {cs : List Char} (h : '\n' ∉ cs) :
  withReturns cs = cs
  := by
  rw [withReturns]
  conv_rhs => rw [← List.flatMap_singleton' cs]
  apply List.flatMap_congr
  intro c hc
  rw [if_neg]
  rintro rfl
  apply h hc

theorem returned_concat (lines : List (List Char)) (last : List Char) :
  returned (lines ++ [last]) = lines.map (· ++ ['\r']) ++ [last]
  := by
  rw [returned, List.dropLast_concat, List.getLast?_concat]
  rfl

theorem returned_cons (line : List Char) {lines : List (List Char)} (h : lines ≠ []) :
  returned (line :: lines) = (line ++ ['\r']) :: returned lines
  := by
  obtain rfl | ⟨init, last, rfl⟩ := lines.eq_nil_or_concat'
  · apply absurd rfl h
  · rw [← List.cons_append, returned_concat, returned_concat]
    rfl

/-- The lines of a text with carriage returns. -/
theorem splitLines_withReturns (cs : List Char) :
  splitLines (withReturns cs) = returned (splitLines cs)
  := by
  induction cs using lineInduct with
  | line cs hcs =>
    rw [withReturns_of_not_mem hcs, splitLines_of_not_mem hcs]
    rfl
  | lines cs rest hcs ih =>
    have hline : '\n' ∉ cs ++ ['\r'] := by simp [hcs]
    rw [withReturns_append_break, withReturns_of_not_mem hcs, splitLines_append_break,
      splitLines_append_break, splitLines_of_not_mem hline, splitLines_of_not_mem hcs, ih]
    apply (returned_cons cs (splitLines_ne_nil rest)).symm

theorem splitLines_inj {s t : List Char} :
  splitLines s = splitLines t ↔ s = t
  := by
  constructor
  · intro h
    rw [← joinWith_splitLines s, h, joinWith_splitLines]
  · rintro rfl
    rfl

end Text

namespace Reindent

open Text

/-! ### The text between the breaks -/

/-- With carriage returns, what follows the first line break of a text follows it still. -/
theorem opens_withReturns (rest : List Char) :
  Opens (withReturns ('\n' :: rest)) (withReturns rest)
  := .inr rfl

theorem not_opens_withReturns {body : List Char} (hbody : '\r' ∉ body)
    (h : ∀ rest, body ≠ '\n' :: rest) (rest : List Char) :
  ¬ Opens (withReturns body) rest
  := by
  cases body with
  | nil =>
    rintro (heq | heq)
    · cases heq
    · cases heq
  | cons c cs =>
    have hc : c ≠ '\n' := by
      rintro rfl
      apply h cs rfl
    have hcons : withReturns (c :: cs) = c :: withReturns cs := by
      rw [withReturns, List.flatMap_cons, if_neg hc]
      rfl
    rw [hcons]
    rintro (heq | heq)
    · apply hc (List.cons_eq_cons.mp heq).1
    · apply hbody
      rw [(List.cons_eq_cons.mp heq).1]
      apply List.mem_cons_self

theorem dropTrailingBlank_of_more (front : List Char) {tail : List Char} (hline : '\n' ∉ tail)
    (hmore : tail.all isIndent = false) :
  dropTrailingBlank (front ++ '\n' :: tail) = front ++ '\n' :: tail
  := by
  apply dropTrailingBlank_of_not_blank
  intro front' tail' heq
  cases hblank : tail'.all isIndent with
  | false => rfl
  | true =>
    have hlast := congrArg lineFront heq
    rw [lineFront_append_break front hline,
      lineFront_append_break front' (not_mem_of_all_isIndent hblank rfl)] at hlast
    rw [hlast, hblank] at hmore
    cases hmore

theorem dropTrailingBlank_withReturns {cs : List Char} (h : '\r' ∉ cs) :
  dropTrailingBlank (withReturns cs) = withReturns (dropTrailingBlank cs)
  := by
  obtain ⟨hline, heq | ⟨front, heq⟩⟩ := lineFront_cases cs
  · rw [← heq] at hline
    have hsame : dropTrailingBlank cs = cs := by
      apply dropTrailingBlank_of_not_blank
      rintro front tail rfl
      simp at hline
    rw [withReturns_of_not_mem hline, hsame, withReturns_of_not_mem hline]
  · generalize lineFront cs = tail at hline heq
    subst heq
    rw [withReturns_append_break, withReturns_of_not_mem hline]
    cases hblank : tail.all isIndent with
    | true =>
      have hlast : front.getLast? ≠ some '\r' := by
        intro hlast
        apply h (List.mem_append_left _ (List.mem_of_getLast? hlast))
      rw [dropTrailingBlank_of_blank _ hblank, dropTrailingBlank_of_blank _ hblank, if_neg hlast,
        List.getLast?_concat, if_pos rfl, List.dropLast_concat]
    | false =>
      rw [dropTrailingBlank_of_more _ hline hblank, dropTrailingBlank_of_more _ hline hblank,
        withReturns_append_break, withReturns_of_not_mem hline]

/-! ### The margin of lines with carriage returns -/

section Lines

variable {init : List (List Char)} {last p : List Char}

theorem all_isIndent_return (line : List Char) :
  (line ++ ['\r']).all isIndent = false
  := by
  rw [List.all_append]
  apply Bool.and_false

/-- With carriage returns, a line of spaces and tabs counts for the margin, but for the last one. -/
theorem isPrefix_margin_returned_iff (hne : init ≠ []) :
  p <+: margin (returned (init ++ [last]))
    ↔ p.all isIndent = true ∧ (∀ line ∈ init, p <+: line)
      ∧ (last.all isIndent = false → p <+: last)
  := by
  rw [returned_concat, isPrefix_margin_iff]
  · apply and_congr_right
    intro hp
    have hreturn (line : List Char) : p <+: line ++ ['\r'] ↔ p <+: line := by
      rw [List.prefix_concat_iff, or_iff_right]
      rintro rfl
      rw [all_isIndent_return] at hp
      cases hp
    simp only [List.forall_mem_append, List.forall_mem_map, List.mem_singleton, forall_eq,
      all_isIndent_return, hreturn, forall_const]
  · obtain ⟨line, hline⟩ := List.exists_mem_of_ne_nil init hne
    use line ++ ['\r'], List.mem_append_left _ (List.mem_map_of_mem hline),
      all_isIndent_return line

/-- With carriage returns, the margin starts every line but the last one, and the last one when it
has more than spaces and tabs. -/
theorem margin_returned_starts (last : List Char) (hne : init ≠ []) :
  (margin (returned (init ++ [last]))).all isIndent = true
    ∧ (∀ line ∈ init, margin (returned (init ++ [last])) <+: line)
    ∧ (last.all isIndent = false → margin (returned (init ++ [last])) <+: last)
  := (isPrefix_margin_returned_iff hne).mp List.prefix_rfl

/-- The margin stays when every line of spaces and tabs that gets a carriage return reaches it. -/
theorem margin_returned_eq_iff (hne : init ≠ [])
    (hmore : ∃ line ∈ init ++ [last], line.all isIndent = false) :
  margin (returned (init ++ [last])) = margin (init ++ [last])
    ↔ ∀ line ∈ init, line.all isIndent = true → margin (init ++ [last]) <+: line
  := by
  obtain ⟨hblank, hinit, hlast⟩ := margin_returned_starts last hne
  have hm := isMargin_margin (init ++ [last])
  constructor
  · intro heq line hline _
    rw [← heq]
    apply hinit line hline
  · intro h
    have hle : margin (returned (init ++ [last])) <+: margin (init ++ [last]) := by
      apply (isPrefix_margin_iff hmore).mpr
      use hblank
      intro line hline hline'
      rcases List.mem_append.mp hline with hline | hline
      · apply hinit line hline
      · obtain rfl := List.mem_singleton.mp hline
        apply hlast hline'
    have hge : margin (init ++ [last]) <+: margin (returned (init ++ [last])) := by
      apply (isPrefix_margin_returned_iff hne).mpr
      use hm.blank
      constructor
      · intro line hline
        cases hline' : line.all isIndent with
        | true => apply h line hline hline'
        | false => apply hm.starts line (List.mem_append_left _ hline) hline'
      · apply hm.starts last (List.mem_append_right _ (List.mem_singleton_self last))
    apply hle.eq_of_length_le hge.length_le

/-! ### One line with a carriage return -/

/-- Without the margin, a line with a carriage return is what it is without the carriage return,
followed by it. -/
theorem exists_dedented_return (last : List Char) {line : List Char} (hline : line ∈ init) :
  ∃ rest, margin (returned (init ++ [last])) ++ rest = line
    ∧ dedented (returned (init ++ [last])) (line ++ ['\r']) = rest ++ ['\r']
  := by
  obtain ⟨-, hinit, -⟩ := margin_returned_starts last (List.ne_nil_of_mem hline)
  obtain ⟨rest, hrest⟩ := hinit line hline
  use rest, hrest
  have hmem : line ++ ['\r'] ∈ returned (init ++ [last]) := by
    rw [returned_concat]
    apply List.mem_append_left _ (List.mem_map_of_mem hline)
  have heq := margin_append_dedented hmem (all_isIndent_return line)
  conv_rhs at heq => rw [← hrest, List.append_assoc]
  apply List.append_cancel_left heq

/-- Two ways to cut a text have the same end exactly when they have the same front. -/
theorem eq_iff_of_append_eq {a b s t : List Char} (h : a ++ s = b ++ t) :
  s = t ↔ a = b
  := by
  constructor
  · rintro rfl
    apply List.append_cancel_right h
  · rintro rfl
    apply List.append_cancel_left h

/-- A first line of spaces and tabs stays empty exactly when all of it is margin, and any other
first line stays the same exactly when the margin does. -/
theorem dedented_return_iff {line : List Char} (hline : line ∈ init) :
  dedented (returned (init ++ [last])) (line ++ ['\r'])
      = dedented (init ++ [last]) line ++ ['\r']
    ↔ (line.all isIndent = true → margin (returned (init ++ [last])) = line)
      ∧ (line.all isIndent = false →
        margin (returned (init ++ [last])) = margin (init ++ [last]))
  := by
  obtain ⟨rest, hrest, hdedented⟩ := exists_dedented_return last hline
  rw [hdedented, List.append_left_inj]
  cases hblank : line.all isIndent with
  | true =>
    rw [dedented_of_blank _ hblank, ← hrest]
    simp
  | false =>
    have heq := margin_append_dedented (List.mem_append_left [last] hline) hblank
    rw [eq_iff_of_append_eq (hrest.trans heq.symm)]
    simp

theorem trim_concat {q : Char → Bool} {c : Char} (hc : q c = false) (cs : List Char) :
  trim q (cs ++ [c]) = trimStart q cs ++ [c]
  := by
  have hstart : trimStart q (cs ++ [c]) = trimStart q cs ++ [c] := by
    rw [trimStart, trimStart, List.dropWhile_append, List.dropWhile_cons_of_neg (by simp [hc])]
    split
    · rename_i hnil
      rw [List.isEmpty_iff.mp hnil, List.nil_append]
    · rfl
  rw [trim, hstart]
  apply List.rdropWhile_concat_neg
  simp [hc]

theorem trimStart_append {q : Char → Bool} {front : List Char} (h : front.all q = true)
    (cs : List Char) :
  trimStart q (front ++ cs) = trimStart q cs
  := List.dropWhile_append_of_pos (List.all_eq_true.mp h)

theorem trim_dedented {lines : List (List Char)} {line : List Char} (hline : line ∈ lines)
    (h : line.all isIndent = false) :
  trim isIndent (dedented lines line) = trim isIndent line
  := by
  conv_rhs => rw [← margin_append_dedented hline h]
  rw [trim, trim, trimStart_append (isMargin_margin lines).blank]

theorem all_isIndent_of_content {line : List Char} (h : line.all isSpace = false) :
  line.all isIndent = false
  := by
  cases hblank : line.all isIndent with
  | false => rfl
  | true =>
    rw [all_isSpace_of_isIndent hblank] at h
    cases h

/-- Trimming a text at its end changes nothing exactly when its last character is not of the set. -/
theorem trimStart_eq_trim_iff {q : Char → Bool} {cs : List Char} (h : cs.all q = false) :
  trimStart q cs = trim q cs ↔ ∀ c ∈ cs.getLast?, q c = false
  := by
  have hne : cs.dropWhile q ≠ [] := by
    intro hnil
    rw [List.all_eq_true.mpr (List.dropWhile_eq_nil_iff.mp hnil)] at h
    cases h
  have hlast : cs.getLast? = some ((cs.dropWhile q).getLast hne) := by
    conv_lhs => rw [← List.takeWhile_append_dropWhile (p := q) (l := cs)]
    rw [List.getLast?_append_of_ne_nil _ hne, List.getLast?_eq_some_getLast hne]
  have htrim : trim q cs = (cs.dropWhile q).rdropWhile q := rfl
  rw [htrim, trimStart, eq_comm, List.rdropWhile_eq_self_iff, hlast]
  simp [hne]

/-- A later line with content stays the same exactly when the margin does. One of other white space
than spaces and tabs stays the same exactly when it does not end with these. -/
theorem indented_return_iff (indent : List Char) {line : List Char} (hline : line ∈ init) :
  indented indent (dedented (returned (init ++ [last])) (line ++ ['\r']))
      = indented indent (dedented (init ++ [last]) line) ++ ['\r']
    ↔ (line.all isSpace = false → margin (returned (init ++ [last])) = margin (init ++ [last]))
      ∧ (line.all isSpace = true → line.all isIndent = false →
        ∀ c ∈ line.getLast?, isIndent c = false)
  := by
  obtain ⟨rest, hrest, hdedented⟩ := exists_dedented_return last hline
  have hmem : line ∈ init ++ [last] := List.mem_append_left [last] hline
  have hblank := (isMargin_margin (returned (init ++ [last]))).blank
  have hreturn : (rest ++ ['\r']).all isSpace = line.all isSpace := by
    rw [← hrest, List.all_append, List.all_append, all_isSpace_of_isIndent hblank, Bool.true_and]
    apply Bool.and_true
  rw [hdedented]
  cases hspace : line.all isSpace with
  | false =>
    have hmore := all_isIndent_of_content hspace
    have heq := margin_append_dedented hmem hmore
    rw [indented, if_neg (by simp [hreturn, hspace]), indented,
      if_neg (by simp [all_isSpace_dedented hmem hmore, hspace]), ← List.append_assoc,
      List.append_left_inj, List.append_right_inj, eq_iff_of_append_eq (hrest.trans heq.symm)]
    simp
  | true =>
    rw [indented, if_pos (by rw [hreturn, hspace]), trim_concat rfl, List.append_left_inj]
    cases hmore : line.all isIndent with
    | true =>
      have hnil : trimStart isIndent rest = [] := by
        rw [← trimStart_append hblank, hrest]
        apply List.dropWhile_eq_nil_iff.mpr (List.all_eq_true.mp hmore)
      rw [dedented_of_blank _ hmore, indented_nil, hnil]
      simp
    | false =>
      rw [indented, if_pos (by rw [all_isSpace_dedented hmem hmore, hspace]),
        ← trimStart_append hblank, hrest, trim_dedented hmem hmore, trimStart_eq_trim_iff hmore]
      simp

/-- A last line with content stays the same exactly when the margin does. -/
theorem indented_last_iff (indent : List Char) :
  indented indent (dedented (returned (init ++ [last])) last)
      = indented indent (dedented (init ++ [last]) last)
    ↔ (last.all isSpace = false → margin (returned (init ++ [last])) = margin (init ++ [last]))
  := by
  have hmem : last ∈ init ++ [last] := List.mem_append_right _ (List.mem_singleton_self last)
  have hmem' : last ∈ returned (init ++ [last]) := by
    rw [returned_concat]
    apply List.mem_append_right _ (List.mem_singleton_self last)
  cases hmore : last.all isIndent with
  | true =>
    rw [dedented_of_blank _ hmore, dedented_of_blank _ hmore, all_isSpace_of_isIndent hmore]
    simp
  | false =>
    have heq := margin_append_dedented hmem hmore
    have heq' := margin_append_dedented hmem' hmore
    rw [indented, indented, all_isSpace_dedented hmem hmore, all_isSpace_dedented hmem' hmore]
    cases hspace : last.all isSpace with
    | true =>
      rw [if_pos rfl, if_pos rfl, trim_dedented hmem hmore, trim_dedented hmem' hmore]
      simp
    | false =>
      rw [if_neg Bool.false_ne_true, if_neg Bool.false_ne_true, List.append_right_inj,
        eq_iff_of_append_eq (heq'.trans heq.symm)]
      simp

end Lines

/-! ### All lines with carriage returns -/

/-- Some line loses the margin: the first one, when it has more than spaces and tabs, or a later one
with content. -/
def LosesMargin (lines : List (List Char)) : Prop :=
  (∃ first ∈ lines.head?, first.all isIndent = false)
    ∨ ∃ line ∈ lines.tail, line.all isSpace = false

/-- Carriage returns at the ends of some lines, but for the last one, do not change how the lines
are laid out. -/
structure Steady (lines : List (List Char)) : Prop where
  /-- The lines of spaces and tabs start with the margin, when some line loses it. -/
  margin : LosesMargin lines → ∀ line ∈ lines.dropLast, line.all isIndent = true →
    Reindent.margin lines <+: line
  /-- A first line of spaces and tabs is the start of all lines that count for the margin. -/
  first : ∀ first ∈ lines.head?, first.all isIndent = true → ∀ line ∈ lines,
    line ∈ lines.dropLast ∨ line.all isIndent = false → first <+: line
  /-- A later line of other white space does not end with a space or a tab. -/
  space : ∀ line ∈ lines.tail.dropLast, line.all isSpace = true → line.all isIndent = false →
    ∀ c ∈ line.getLast?, isIndent c = false

theorem LosesMargin.exists_more {lines : List (List Char)} (h : LosesMargin lines) :
  ∃ line ∈ lines, line.all isIndent = false
  := by
  rcases h with ⟨first, hfirst, hmore⟩ | ⟨line, hline, hmore⟩
  · use first, List.mem_of_mem_head? hfirst
  · use line, List.mem_of_mem_tail hline, all_isIndent_of_content hmore

theorem relaid_of_eq (indent : List Char) {first : List Char} {lines rest : List (List Char)}
    (h : lines = first :: rest) :
  relaid indent lines
    = dedented lines first :: rest.map fun line => indented indent (dedented lines line)
  := by
  subst h
  rfl

/-- Carriage returns leave the lines as they are laid out when they leave each of them so. -/
theorem relaid_returned_iff (indent first last : List Char) (mid : List (List Char)) :
  relaid indent (returned (first :: mid ++ [last]))
      = returned (relaid indent (first :: mid ++ [last]))
    ↔ dedented (returned (first :: mid ++ [last])) (first ++ ['\r'])
        = dedented (first :: mid ++ [last]) first ++ ['\r']
      ∧ (∀ line ∈ mid,
        indented indent (dedented (returned (first :: mid ++ [last])) (line ++ ['\r']))
          = indented indent (dedented (first :: mid ++ [last]) line) ++ ['\r'])
      ∧ indented indent (dedented (returned (first :: mid ++ [last])) last)
        = indented indent (dedented (first :: mid ++ [last]) last)
  := by
  have hreturned : returned (first :: mid ++ [last])
      = (first ++ ['\r']) :: (mid.map (· ++ ['\r']) ++ [last]) := returned_concat _ last
  have hrelaid : returned (relaid indent (first :: mid ++ [last]))
      = (dedented (first :: mid ++ [last]) first ++ ['\r'])
        :: ((mid.map fun line => indented indent (dedented (first :: mid ++ [last]) line) ++ ['\r'])
          ++ [indented indent (dedented (first :: mid ++ [last]) last)]) := by
    rw [relaid_of_eq indent (List.cons_append ..), List.map_append, List.map_singleton,
      ← List.cons_append, returned_concat, List.map_cons, List.map_map]
    rfl
  rw [relaid_of_eq indent hreturned, hrelaid, List.cons_eq_cons, List.map_append, List.map_map]
  apply and_congr_right'
  constructor
  · intro h
    obtain ⟨hmid, hlast⟩ := List.append_inj' h rfl
    exact ⟨List.map_inj_left.mp hmid, List.head_eq_of_cons_eq hlast⟩
  · rintro ⟨hmid, hlast⟩
    rw [List.map_singleton, hlast]
    congr 1
    apply List.map_inj_left.mpr hmid

/-- With carriage returns, a first line of spaces and tabs is the margin exactly when it starts all
lines that count for it. -/
theorem margin_returned_eq_first_iff {first : List Char} (last : List Char)
    (mid : List (List Char)) (hblank : first.all isIndent = true) :
  margin (returned (first :: mid ++ [last])) = first
    ↔ ∀ line ∈ first :: mid ++ [last], line ∈ first :: mid ∨ line.all isIndent = false →
      first <+: line
  := by
  obtain ⟨-, hinit, hlast⟩ := margin_returned_starts last (List.cons_ne_nil first mid)
  constructor
  · intro heq line hline hcounts
    rw [heq] at hinit hlast
    rcases List.mem_append.mp hline with hline | hline
    · apply hinit line hline
    · obtain rfl := List.mem_singleton.mp hline
      rcases hcounts with hcounts | hmore
      · apply hinit line hcounts
      · apply hlast hmore
  · intro h
    have hge : first <+: margin (returned (first :: mid ++ [last])) := by
      apply (isPrefix_margin_returned_iff (List.cons_ne_nil first mid)).mpr
      use hblank
      constructor
      · intro line hline
        apply h line (List.mem_append_left _ hline) (.inl hline)
      · intro hmore
        apply h last (List.mem_append_right _ (List.mem_singleton_self last)) (.inr hmore)
    apply (hinit first List.mem_cons_self).eq_of_length_le hge.length_le

/-- Carriage returns leave two lines or more as they are laid out exactly when these are steady. -/
theorem relaid_returned_iff_steady (indent first last : List Char) (mid : List (List Char)) :
  relaid indent (returned (first :: mid ++ [last]))
      = returned (relaid indent (first :: mid ++ [last]))
    ↔ Steady (first :: mid ++ [last])
  := by
  have hne : first :: mid ≠ [] := List.cons_ne_nil first mid
  have hinit : (first :: mid ++ [last]).dropLast = first :: mid := List.dropLast_concat
  have hmid : (first :: mid ++ [last]).tail.dropLast = mid := List.dropLast_concat
  rw [relaid_returned_iff, dedented_return_iff List.mem_cons_self, indented_last_iff]
  constructor
  · rintro ⟨⟨hempty, hfirst⟩, hlater, hlast⟩
    have hkept (line : List Char) (hline : line ∈ mid) :=
      (indented_return_iff indent (List.mem_cons_of_mem first hline)).mp (hlater line hline)
    constructor
    · intro hloses
      rw [hinit]
      apply (margin_returned_eq_iff hne hloses.exists_more).mp
      rcases hloses with ⟨f, hf, hmore⟩ | ⟨line, hline, hmore⟩
      · obtain rfl := Option.mem_some_iff.mp hf
        apply hfirst hmore
      · rcases List.mem_append.mp hline with hline | hline
        · apply (hkept line hline).1 hmore
        · obtain rfl := List.mem_singleton.mp hline
          apply hlast hmore
    · intro f hf hblank
      obtain rfl := Option.mem_some_iff.mp hf
      rw [hinit]
      apply (margin_returned_eq_first_iff last mid hblank).mp (hempty hblank)
    · intro line hline
      rw [hmid] at hline
      apply (hkept line hline).2
  · rintro ⟨hmargin, hfirst, hspace⟩
    rw [hinit] at hmargin hfirst
    rw [hmid] at hspace
    have hsame (hloses : LosesMargin (first :: mid ++ [last])) :=
      (margin_returned_eq_iff hne hloses.exists_more).mpr (hmargin hloses)
    refine ⟨⟨?_, ?_⟩, ?_, ?_⟩
    · intro hblank
      apply (margin_returned_eq_first_iff last mid hblank).mpr (hfirst first rfl hblank)
    · intro hmore
      apply hsame (.inl ⟨first, rfl, hmore⟩)
    · intro line hline
      apply (indented_return_iff indent (List.mem_cons_of_mem first hline)).mpr
      use fun hmore => hsame (.inr ⟨line, List.mem_append_left _ hline, hmore⟩), hspace line hline
    · intro hmore
      apply hsame (.inr ⟨last, List.mem_append_right _ (List.mem_singleton_self last), hmore⟩)

theorem steady_singleton (line : List Char) :
  Steady [line]
  := by
  constructor
  · nofun
  · intro first hfirst hblank line' hline' hcounts
    obtain rfl := Option.mem_some_iff.mp hfirst
    obtain rfl := List.mem_singleton.mp hline'
    apply List.prefix_rfl
  · nofun

/-! ### The reindented text with carriage returns -/

/-- A text without carriage returns is reindented like the same text with a carriage return before
each line feed exactly when the lines between its first and its last line break are steady. -/
theorem reindent_withReturns_iff {body indent : List Char} (hbody : '\r' ∉ body)
    (hindent : indent.all isIndent = true) :
  reindent (withReturns body) indent = withReturns (reindent body indent)
    ↔ ∀ rest inside, body = '\n' :: rest → Trims rest inside → Steady (splitLines inside)
  := by
  by_cases hopens : ∃ rest, body = '\n' :: rest
  · obtain ⟨rest, rfl⟩ := hopens
    have hrest : '\r' ∉ rest := fun h => hbody (List.mem_cons_of_mem _ h)
    have hsteady : (∀ rest' inside, '\n' :: rest = '\n' :: rest' → Trims rest' inside →
        Steady (splitLines inside)) ↔ Steady (splitLines (dropTrailingBlank rest)) := by
      simp [trims_iff]
    rw [hsteady, ← splitLines_inj, splitLines_reindent (opens_withReturns rest) hindent,
      dropTrailingBlank_withReturns hrest, splitLines_withReturns, splitLines_withReturns,
      splitLines_reindent (.inl rfl) hindent]
    have hne := splitLines_ne_nil (dropTrailingBlank rest)
    generalize splitLines (dropTrailingBlank rest) = lines at hne
    cases lines with
    | nil => apply absurd rfl hne
    | cons first lines =>
      obtain rfl | ⟨mid, last, rfl⟩ := lines.eq_nil_or_concat'
      · simp only [steady_singleton, iff_true]
        rfl
      · apply relaid_returned_iff_steady
  · have hnot := not_exists.mp hopens
    have hclosed (rest : List Char) : ¬ Opens body rest := by
      rintro (rfl | rfl)
      · apply hnot rest rfl
      · apply hbody List.mem_cons_self
    rw [reindent, splitFirstBreak_of_not_opens (not_opens_withReturns hbody hnot), reindent,
      splitFirstBreak_of_not_opens hclosed]
    simp [hnot]

/-- A line of two spaces between two lines at this margin. -/
theorem reindent_withReturns_steady :
  let body := "\n  a\n  \n  b\n".toList
  reindent (withReturns body) [] = withReturns (reindent body [])
  ∧ Steady (["  a", "  ", "  b"].map String.toList)
  := by
  intro body
  have hbody : '\r' ∉ body := by decide
  have heq : reindent (withReturns body) [] = withReturns (reindent body []) := by decide
  use heq
  apply (reindent_withReturns_iff hbody rfl).mp heq _ "  a\n  \n  b".toList rfl
  apply trims_iff.mpr rfl

/-- An empty line between two lines at a margin of two spaces. With line feeds the margin goes. With
carriage returns the empty line has a character in front of the margin, and both lines keep it. -/
theorem reindent_withReturns_empty :
  let body := "\n  a\n\n  b\n".toList
  '\r' ∉ body
  ∧ reindent body [] = "a\n\nb".toList
  ∧ reindent (withReturns body) [] = "  a\r\n\r\n  b".toList
  ∧ reindent (withReturns body) [] ≠ withReturns (reindent body [])
  := by
  decide

end Reindent

end Codemod
