import Codemod.Edit.Removal
import Codemod.Proofs.Boundary
import Mathlib.Data.List.Basic
import Mathlib.Data.List.TakeWhile

/-!
# Layout and content

The content of a text is what is left when its white space is taken out. Trimming a text and taking
it apart into lines change the layout only. The removal of a node takes nothing but white space with
it, and two removals overlap only where both take the line break before the last line.
-/

namespace Codemod

namespace Text

/-! ### Content -/

/-- The characters of a text that are not white space. -/
def content (cs : List Char) : List Char :=
  cs.filter fun c => !isSpace c

@[simp]
theorem content_nil :
  content [] = []
  := rfl

@[simp]
theorem content_append (s t : List Char) :
  content (s ++ t) = content s ++ content t
  := List.filter_append s t

theorem content_cons (c : Char) (cs : List Char) :
  content (c :: cs) = content [c] ++ content cs
  := content_append [c] cs

theorem content_eq_nil {cs : List Char} (h : cs.all isSpace = true) :
  content cs = []
  := by
  apply List.filter_eq_nil_iff.mpr
  intro c hc
  simp [List.all_eq_true.mp h c hc]

theorem isSpace_of_isAsciiSpace {c : Char} (h : isAsciiSpace c = true) :
  isSpace c = true
  := by
  simp [isSpace, h]

theorem isSpace_of_isIndent {c : Char} (h : isIndent c = true) :
  isSpace c = true
  := by
  simp only [isIndent, Bool.or_eq_true, decide_eq_true_iff] at h
  rcases h with rfl | rfl <;> rfl

/-- Characters of a set of white space have no content. -/
theorem content_of_all {p : Char → Bool} (hp : ∀ c, p c = true → isSpace c = true)
    {cs : List Char} (h : cs.all p = true) :
  content cs = []
  := by
  apply content_eq_nil
  apply List.all_eq_true.mpr
  intro c hc
  apply hp c (List.all_eq_true.mp h c hc)

/-! ### Trimming -/

section Trimming

variable {p : Char → Bool} (hp : ∀ c, p c = true → isSpace c = true)

include hp

theorem content_dropWhile (cs : List Char) :
  content (cs.dropWhile p) = content cs
  := by
  have hfront : content (cs.takeWhile p) = [] := content_of_all hp List.all_takeWhile
  conv_rhs => rw [← List.takeWhile_append_dropWhile (p := p) (l := cs)]
  rw [content_append, hfront, List.nil_append]

theorem content_trim (cs : List Char) :
  content (trim p cs) = content cs
  := by
  have hreverse : ∀ s, content s.reverse = (content s).reverse := fun s => List.filter_reverse
  rw [trim, trimEnd, trimStart, hreverse, content_dropWhile hp, hreverse, List.reverse_reverse,
    content_dropWhile hp]

end Trimming

/-! ### Lines -/

theorem content_joinWith (lines : List (List Char)) :
  content (joinWith ['\n'] lines) = lines.flatMap content
  := by
  fun_induction joinWith with
  | case1 => rfl
  | case2 t => rw [List.flatMap_singleton]
  | case3 t ts h ih =>
    have hbreak : content ['\n'] = [] := rfl
    rw [content_append, content_append, hbreak, List.append_nil, ih, List.flatMap_cons]

theorem flatMap_content_splitOn (cs : List Char) :
  (splitOn '\n' cs).flatMap content = content cs
  := by
  induction cs with
  | nil => rfl
  | cons c cs ih =>
    rw [splitOn]
    split
    · rename_i hc
      rw [List.flatMap_cons, ih, hc]
      rfl
    · rw [content_cons, ← ih]
      cases splitOn '\n' cs with
      | nil => simp
      | cons part parts =>
        simp only [List.flatMap_cons]
        rw [content_cons c part, List.append_assoc]

/-- A text up to its first line feed. -/
theorem lineBack_cases (cs : List Char) :
  '\n' ∉ lineBack cs ∧ (cs = lineBack cs ∨ ∃ rest, cs = lineBack cs ++ '\n' :: rest)
  := by
  induction cs with
  | nil => exact ⟨nofun, .inl rfl⟩
  | cons c cs ih =>
    obtain ⟨hmem, hcases⟩ := ih
    by_cases hc : c = '\n'
    · rw [lineBack, List.takeWhile_cons_of_neg (by simp [hc]), hc]
      exact ⟨nofun, .inr ⟨cs, rfl⟩⟩
    · have hcons : lineBack (c :: cs) = c :: lineBack cs :=
        List.takeWhile_cons_of_pos (by simp [hc])
      rw [hcons]
      use by simp [hmem, Ne.symm hc]
      rcases hcases with heq | ⟨rest, heq⟩
      · apply Or.inl
        rw [← heq]
      · apply Or.inr
        use rest
        rw [List.cons_append, ← heq]

/-- A text from its last line feed on. -/
theorem lineFront_cases (cs : List Char) :
  '\n' ∉ lineFront cs
    ∧ (cs = lineFront cs ∨ ∃ front, cs = front ++ '\n' :: lineFront cs)
  := by
  have heq : lineFront cs = (lineBack cs.reverse).reverse := rfl
  obtain ⟨hmem, hcases⟩ := lineBack_cases cs.reverse
  rw [heq]
  use by simpa using hmem
  rcases hcases with hback | ⟨rest, hback⟩
  · apply Or.inl
    rw [← hback, List.reverse_reverse]
  · apply Or.inr
    use rest.reverse
    have hreverse := congrArg List.reverse hback
    simpa using hreverse

/-- Something else than white space precedes an offset on its line. -/
def OffMargin (text : List Char) (n : Nat) : Prop :=
  (lineFront (takeBytes text n)).all isAsciiSpace = false

/-- The front of the last line of two texts put together. -/
theorem lineFront_append (s t : List Char) :
  lineFront (s ++ t) = if '\n' ∈ t then lineFront t else lineFront s ++ t
  := by
  rw [lineFront, List.reverse_append, List.takeWhile_append]
  by_cases h : '\n' ∈ t
  · have hlength : (t.reverse.takeWhile (· ≠ '\n')).length ≠ t.reverse.length := by
      intro heq
      have hall := List.takeWhile_eq_self_iff.mp ((List.takeWhile_prefix _).eq_of_length heq)
      simpa using hall '\n' (List.mem_reverse.mpr h)
    rw [if_neg hlength, if_pos h]
    rfl
  · have hall : t.reverse.takeWhile (· ≠ '\n') = t.reverse := by
      apply List.takeWhile_eq_self_iff.mpr
      intro c hc
      simp only [ne_eq, decide_not, Bool.not_eq_true', decide_eq_false_iff_not]
      rintro rfl
      apply h (List.mem_reverse.mp hc)
    rw [hall, if_pos rfl, if_neg h, List.reverse_append, List.reverse_reverse]
    rfl

/-- A text that ends with something else than white space on its last line. -/
theorem offMargin_of_mem {text front token : List Char} {n : Nat}
    (h : takeBytes text n = front ++ token) {c : Char} (hc : c ∈ lineFront token)
    (hspace : isAsciiSpace c = false) :
  OffMargin text n
  := by
  have hmem : c ∈ lineFront (takeBytes text n) := by
    rw [h, lineFront_append]
    split
    · apply hc
    · rename_i hbreak
      obtain ⟨-, heq | ⟨rest, heq⟩⟩ := lineFront_cases token
      · rw [← heq] at hc
        apply List.mem_append_right _ hc
      · rw [heq] at hbreak
        simp at hbreak
  rw [OffMargin, List.all_eq_false]
  use c, hmem
  rw [hspace]
  nofun

theorem offMargin_of_charBefore {text : List Char} {n : Nat} {c : Char}
    (h : charBefore text n = some c) (hspace : isAsciiSpace c = false) :
  OffMargin text n
  := by
  obtain ⟨front, hfront⟩ := exists_of_charBefore h
  apply offMargin_of_mem hfront (c := c) _ hspace
  have hbreak : c ≠ '\n' := by
    rintro rfl
    cases hspace
  simp [lineFront, hbreak]

end Text

namespace Node

open Text

/-! ### Removing a node with its lines -/

/-- A node shares its lines with white space only: with the front of the line it starts on, and
with the back of the line it ends on, which a line feed follows. -/
structure OnItsLines (source : List Char) (n : Node) (front back : List Char) : Prop where
  before : ∃ rest, n.textBefore source = rest ++ front
  behind : ∃ rest, n.textBehind source = back ++ '\n' :: rest
  front_blank : front.all isAsciiSpace = true
  back_blank : back.all isAsciiSpace = true
  front_line : '\n' ∉ front
  back_line : '\n' ∉ back

/-- A node stands on the last line of a text and shares it with white space only. -/
structure OnLastLine (source : List Char) (n : Node) : Prop where
  front_blank : n.startsLine source = true
  behind_blank : (n.textBehind source).all isAsciiSpace = true
  behind_line : '\n' ∉ n.textBehind source

theorem OnItsLines.removal_eq {source : List Char} {n : Node}
    (h : n.OnItsLines source (lineFront (n.textBefore source)) (lineBack (n.textBehind source))) :
  n.removal source = ⟨(n.start - byteLength (lineFront (n.textBefore source)) : Nat),
    n.stop + byteLength (lineBack (n.textBehind source)) + 1, []⟩
  := by
  obtain ⟨rest, hrest⟩ := h.behind
  have hbreak : (n.textBehind source).contains '\n' = true := by
    apply List.contains_iff_mem.mpr
    rw [hrest]
    simp
  rw [removal, if_neg (by simp [startsLine, h.front_blank, h.back_blank]), if_pos hbreak]

theorem OnLastLine.removal_eq {source : List Char} {n : Node} (h : n.OnLastLine source) :
  n.removal source = ⟨(n.start - byteLength (lineFront (n.textBefore source)) - 1 : Nat),
    byteLength source, []⟩
  := by
  have hback : lineBack (n.textBehind source) = n.textBehind source := by
    obtain ⟨-, hall | ⟨rest, hrest⟩⟩ := lineBack_cases (n.textBehind source)
    · apply hall.symm
    · have hline := h.behind_line
      rw [hrest] at hline
      simp at hline
  rw [removal, if_neg (by simp [hback, h.front_blank, h.behind_blank]),
    if_neg (by simpa using h.behind_line)]

/-- A node that shares its lines with something is removed alone. -/
theorem removal_of_shared {source : List Char} {n : Node}
    (h : ¬ (n.startsLine source = true
      ∧ (lineBack (n.textBehind source)).all isAsciiSpace = true)) :
  n.removal source = n.replace []
  := by
  rw [removal, if_pos (by simpa [imp_iff_not_or] using h)]
  rfl

/-- A node that shares its lines with white space only has a line feed behind these lines, or is on
the last line. -/
theorem onItsLines_or_onLastLine {source : List Char} {n : Node}
    (hfront : n.startsLine source = true)
    (hback : (lineBack (n.textBehind source)).all isAsciiSpace = true) :
  n.OnItsLines source (lineFront (n.textBefore source)) (lineBack (n.textBehind source))
  ∨ n.OnLastLine source
  := by
  obtain ⟨hfrontLine, hbefore⟩ := lineFront_cases (n.textBefore source)
  obtain ⟨hbackLine, hall | hrest⟩ := lineBack_cases (n.textBehind source)
  · apply Or.inr
    rw [← hall] at hbackLine hback
    exact ⟨hfront, hback, hbackLine⟩
  · apply Or.inl
    refine ⟨?_, hrest, hfront, hback, hfrontLine, hbackLine⟩
    rcases hbefore with hall | ⟨rest, hrest⟩
    · use []
      apply hall
    · use rest ++ ['\n']
      rw [List.append_assoc]
      apply hrest

/-- The removal of a node takes the node alone, or with its lines when it shares them with nothing
else. On the last line of a text it takes the line break before them instead of the one behind. -/
theorem removal_forms (source : List Char) (n : Node) :
  n.removal source = n.replace []
  ∨ n.OnItsLines source (lineFront (n.textBefore source)) (lineBack (n.textBehind source))
  ∨ n.OnLastLine source
  := by
  by_cases hblank : n.startsLine source = true
      ∧ (lineBack (n.textBehind source)).all isAsciiSpace = true
  · apply Or.inr (onItsLines_or_onLastLine hblank.1 hblank.2)
  · apply Or.inl (removal_of_shared hblank)

/-- The removal of a node that is not the last thing in a text takes the node alone, or with its
lines when it shares them with nothing else. -/
theorem removal_cases {source : List Char} {n : Node} {c : Char} (hc : c ∈ n.textBehind source)
    (hspace : isAsciiSpace c = false) :
  n.removal source = n.replace []
  ∨ ∃ front back, n.OnItsLines source front back
    ∧ n.removal source
      = ⟨(n.start - byteLength front : Nat), n.stop + byteLength back + 1, []⟩
  := by
  rcases n.removal_forms source with heq | hlines | hlast
  · apply Or.inl heq
  · exact .inr ⟨_, _, hlines, hlines.removal_eq⟩
  · rw [List.all_eq_true.mp hlast.behind_blank c hc] at hspace
    cases hspace

/-! ### The edges of the lines of a node -/

section Edges

variable {source front back : List Char} {n : Node}

/-- The first line of a node starts at a boundary, with the white space before the node. -/
theorem OnItsLines.front_edge (h : n.OnItsLines source front back)
    (hstart : Boundary source n.start) :
  Boundary source (n.start - byteLength front)
  ∧ slice source (n.start - byteLength front) n.start = front
  := by
  obtain ⟨rest, hrest⟩ := h.before
  obtain ⟨f, b, rfl, hf⟩ := hstart
  rw [textBefore, ← hf, takeBytes_append] at hrest
  subst hrest
  have hedge : n.start - byteLength front = byteLength rest := by
    rw [byteLength_append] at hf
    omega
  rw [hedge, ← hf]
  exact ⟨⟨rest, front ++ b, List.append_assoc rest front b, rfl⟩, slice_append rest front b⟩

/-- The last line of a node ends at a boundary, with the white space and the line break behind the
node. -/
theorem OnItsLines.back_edge (h : n.OnItsLines source front back)
    (hstop : Boundary source n.stop) :
  Boundary source (n.stop + byteLength back + 1)
  ∧ slice source n.stop (n.stop + byteLength back + 1) = back ++ ['\n']
  := by
  obtain ⟨rest, hrest⟩ := h.behind
  obtain ⟨f, b, rfl, hf⟩ := hstop
  rw [textBehind, ← hf, dropBytes_append, List.append_cons] at hrest
  subst hrest
  have hedge : n.stop + byteLength back + 1 = byteLength (f ++ (back ++ ['\n'])) := by
    have hbreak : byteLength ['\n'] = 1 := rfl
    rw [byteLength_append, byteLength_append, hbreak, hf]
    omega
  rw [hedge, ← hf, ← List.append_assoc f]
  exact ⟨⟨_, rest, rfl, rfl⟩, slice_append f (back ++ ['\n']) rest⟩

/-- The removal of a node goes from a boundary at or before the node to one at or behind it. -/
theorem removal_span (n : Node) (hstart : Boundary source n.start)
    (hstop : Boundary source n.stop) :
  ∃ s t : Nat, n.removal source = ⟨s, t, []⟩ ∧ s ≤ n.start ∧ n.stop ≤ t ∧ Boundary source s
    ∧ Boundary source t
  := by
  rcases n.removal_forms source with heq | hlines | hlast
  · exact ⟨_, _, heq, Nat.le_refl _, Nat.le_refl _, hstart, hstop⟩
  · obtain ⟨hfront, -⟩ := hlines.front_edge hstart
    obtain ⟨hback, -⟩ := hlines.back_edge hstop
    exact ⟨_, _, hlines.removal_eq, by omega, by omega, hfront, hback⟩
  · refine ⟨_, _, hlast.removal_eq, by omega, hstop.le, ?_, ⟨source, [], by simp, rfl⟩⟩
    obtain ⟨f, b, rfl, hf⟩ := hstart
    rw [textBefore, ← hf, takeBytes_append]
    obtain ⟨-, hall | ⟨rest, hrest⟩⟩ := lineFront_cases f
    · rw [← hall, Nat.sub_self]
      apply boundary_zero
    · -- the line break before the line is one byte
      have hbreak : ('\n').utf8Size = 1 := rfl
      have hlength := congrArg byteLength hrest
      rw [byteLength_append, byteLength_cons, hbreak] at hlength
      have hedge : byteLength f - byteLength (lineFront f) - 1 = byteLength rest := by omega
      rw [hedge]
      refine ⟨rest, '\n' :: lineFront f ++ b, ?_, rfl⟩
      rw [← List.append_assoc, ← hrest]

end Edges

/-! ### What stands between two nodes -/

/-- A part without some character ends before the first place of that character. -/
theorem exists_of_not_mem_front {c : Char} {s t u v : List Char} (h : s ++ c :: t = u ++ v)
    (hc : c ∉ u) :
  ∃ w, s = u ++ w
  := by
  rcases List.append_eq_append_iff.mp h with ⟨w, rfl, hw⟩ | ⟨w, rfl, -⟩
  · cases w with
    | nil => exact ⟨[], by simp⟩
    | cons x w =>
      cases hw
      simp at hc
  · use w

/-- A part without some character starts behind the last place of that character. -/
theorem exists_of_not_mem_back {c : Char} {s t u v : List Char} (h : s ++ c :: t = u ++ v)
    (hc : c ∉ v) :
  ∃ w, t = w ++ v
  := by
  rcases List.append_eq_append_iff.mp h with ⟨w, -, hw⟩ | ⟨w, -, rfl⟩
  · cases w with
    | nil =>
      rw [List.nil_append] at hw
      simp [← hw] at hc
    | cons x w =>
      cases hw
      exact ⟨w, rfl⟩
  · simp at hc

section Gaps

variable {source front back : List Char} {n m : Node} {c : Char}
  (hstop : Boundary source n.stop) (hstart : Boundary source m.start) (hle : n.stop ≤ m.start)
  (hspace : isAsciiSpace c = false)

include hstop hstart hle hspace

/-- The line on which a node ends is over before the next node starts. -/
theorem OnItsLines.exists_gap_behind (h : n.OnItsLines source front back)
    (hc : charAt source m.start = some c) :
  ∃ w, slice source n.stop m.start = back ++ '\n' :: w
  := by
  obtain ⟨rest, hrest⟩ := h.behind
  obtain ⟨rest', hrest'⟩ := exists_of_charAt hc
  rw [textBehind, hstop.dropBytes_eq hstart hle, hrest', List.append_cons back] at hrest
  have hnot : c ∉ back ++ ['\n'] := by
    intro hmem
    rcases List.mem_append.mp hmem with hmem | hmem
    · rw [List.all_eq_true.mp h.back_blank c hmem] at hspace
      cases hspace
    · rw [List.mem_singleton.mp hmem] at hspace
      cases hspace
  obtain ⟨w, hw⟩ := exists_of_not_mem_front hrest hnot
  use w
  rw [hw, List.append_assoc, List.singleton_append]

/-- The line on which a node starts begins behind the node before it. -/
theorem OnItsLines.exists_gap_before (h : m.OnItsLines source front back)
    (hc : charBefore source n.stop = some c) :
  ∃ w, slice source n.stop m.start = w ++ front
  := by
  obtain ⟨rest, hrest⟩ := h.before
  obtain ⟨rest', hrest'⟩ := exists_of_charBefore hc
  rw [textBefore, hstop.takeBytes_eq hstart hle, hrest', List.append_assoc,
    List.singleton_append] at hrest
  apply exists_of_not_mem_back hrest
  intro hmem
  rw [List.all_eq_true.mp h.front_blank c hmem] at hspace
  cases hspace

end Gaps

/-! ### Removals one after the other -/

/-- Between an offset with something else than white space before it on its line and a node that
starts its line, there is the line break before the line of the node. -/
theorem exists_break_before {source : List Char} {m : Node} {p : Nat} (hp : Boundary source p)
    (hstart : Boundary source m.start) (hle : p ≤ m.start) (hoff : OffMargin source p)
    (hm : m.startsLine source = true) :
  ∃ w, slice source p m.start = w ++ '\n' :: lineFront (m.textBefore source)
  := by
  have hbefore : m.textBefore source = takeBytes source p ++ slice source p m.start :=
    hp.takeBytes_eq hstart hle
  have hblank : (lineFront (m.textBefore source)).all isAsciiSpace = true := hm
  rw [hbefore, lineFront_append] at hblank ⊢
  by_cases hbreak : '\n' ∈ slice source p m.start
  · rw [if_pos hbreak]
    obtain ⟨hfront, hall | hrest⟩ := lineFront_cases (slice source p m.start)
    · rw [← hall] at hfront
      contradiction
    · apply hrest
  · rw [if_neg hbreak, List.all_append, Bool.and_eq_true] at hblank
    rw [OffMargin, hblank.1] at hoff
    cases hoff

/-- What is removed with a node starts behind all that precedes the node on other lines. -/
theorem le_start_removal {source : List Char} {m : Node} {p : Nat} (hp : Boundary source p)
    (hstart : Boundary source m.start) (hle : p ≤ m.start)
    (hoff : OffMargin source p) :
  (p : Int) ≤ (m.removal source).start
  := by
  have hgap := hp.byteLength_slice hstart hle
  have hbreak : ('\n').utf8Size = 1 := rfl
  rcases m.removal_forms source with heq | hlines | hlast
  · rw [heq]
    apply Int.ofNat_le.mpr hle
  · obtain ⟨w, hw⟩ := exists_break_before hp hstart hle hoff hlines.front_blank
    rw [hw, byteLength_append, byteLength_cons, hbreak] at hgap
    rw [hlines.removal_eq]
    simp only
    omega
  · obtain ⟨w, hw⟩ := exists_break_before hp hstart hle hoff hlast.front_blank
    rw [hw, byteLength_append, byteLength_cons, hbreak] at hgap
    rw [hlast.removal_eq]
    simp only
    omega

/-- The line break behind the lines of a node is the one before the last line of the text, and with
each of two nodes it would be removed. -/
structure SharesBreak (source : List Char) (n m : Node) : Prop where
  lines : n.OnItsLines source (lineFront (n.textBefore source)) (lineBack (n.textBehind source))
  last : m.OnLastLine source
  gap : slice source n.stop m.start
    = lineBack (n.textBehind source) ++ '\n' :: lineFront (m.textBefore source)

section InTurn

variable {source : List Char} {n m : Node} {x : Char}
  (hstop : Boundary source n.stop) (hstart : Boundary source m.start) (hle : n.stop ≤ m.start)
  (hx : charAt source m.start = some x) (hspace : isAsciiSpace x = false)

include hstop hstart hle hx hspace

/-- A node with another one behind it is not on the last line of the text by itself. -/
theorem not_onLastLine :
  ¬ n.OnLastLine source
  := by
  intro hlast
  obtain ⟨rest, hrest⟩ := exists_of_charAt hx
  have hmem : x ∈ n.textBehind source := by
    rw [textBehind, hstop.dropBytes_eq hstart hle, hrest]
    simp
  rw [List.all_eq_true.mp hlast.behind_blank x hmem] at hspace
  cases hspace

/-- What is removed with a node ends before the next node. -/
theorem stop_removal_le :
  (n.removal source).stop ≤ m.start
  := by
  rcases n.removal_forms source with heq | hlines | hlast
  · rw [heq]
    apply Int.ofNat_le.mpr hle
  · obtain ⟨w, hw⟩ := hlines.exists_gap_behind hstop hstart hle hspace hx
    have hgap := hstop.byteLength_slice hstart hle
    have hbreak : ('\n').utf8Size = 1 := rfl
    rw [hw, byteLength_append, byteLength_cons, hbreak] at hgap
    rw [hlines.removal_eq]
    simp only
    omega
  · cases not_onLastLine hstop hstart hle hx hspace hlast

variable (hoff : OffMargin source n.stop)

include hoff

/-- Between two nodes that start or end lines of their own, there is the line break behind the
first one and the front of the line of the second one. -/
theorem OnItsLines.exists_gap_between {front back : List Char}
    (hn : n.OnItsLines source front back) (hm : m.startsLine source = true) :
  ∃ v, slice source n.stop m.start = back ++ '\n' :: (v ++ lineFront (m.textBefore source))
  := by
  obtain ⟨hline, -⟩ := lineFront_cases (m.textBefore source)
  obtain ⟨w, hw⟩ := hn.exists_gap_behind hstop hstart hle hspace hx
  obtain ⟨w', hw'⟩ := exists_break_before hstop hstart hle hoff hm
  rw [List.append_cons] at hw'
  obtain ⟨v, rfl⟩ := exists_of_not_mem_back (hw.symm.trans hw') hline
  use v

/-- Two nodes, the first of which does not end at a margin, are removed one after the other unless
both removals take one line break. -/
theorem removal_inTurn_iff :
  (n.removal source).stop ≤ (m.removal source).start ↔ ¬ SharesBreak source n m
  := by
  have hgap := hstop.byteLength_slice hstart hle
  have hbreak : ('\n').utf8Size = 1 := rfl
  constructor
  · rintro hturn ⟨hlines, hlast, hslice⟩
    rw [hslice, byteLength_append, byteLength_cons, hbreak] at hgap
    rw [hlines.removal_eq, hlast.removal_eq] at hturn
    simp only at hturn
    omega
  · intro hshares
    rcases n.removal_forms source with heq | hlines | hlast
    · rw [heq]
      apply le_start_removal hstop hstart hle hoff
    · rcases m.removal_forms source with heq' | hlines' | hlast'
      · rw [heq']
        apply stop_removal_le hstop hstart hle hx hspace
      · obtain ⟨v, hv⟩ :=
          hlines.exists_gap_between hstop hstart hle hx hspace hoff hlines'.front_blank
        rw [hv, byteLength_append, byteLength_cons, byteLength_append, hbreak] at hgap
        rw [hlines.removal_eq, hlines'.removal_eq]
        simp only
        omega
      · obtain ⟨v, hv⟩ :=
          hlines.exists_gap_between hstop hstart hle hx hspace hoff hlast'.front_blank
        -- the break before the last line is another one than that behind the lines of the first
        have hother : byteLength v ≠ 0 := by
          intro hzero
          rw [eq_nil_of_byteLength hzero] at hv
          apply hshares ⟨hlines, hlast', hv⟩
        rw [hv, byteLength_append, byteLength_cons, byteLength_append, hbreak] at hgap
        rw [hlines.removal_eq, hlast'.removal_eq]
        simp only
        omega
    · cases not_onLastLine hstop hstart hle hx hspace hlast

end InTurn

end Node

end Codemod
