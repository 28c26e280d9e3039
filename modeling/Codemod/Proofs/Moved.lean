import Codemod.Proofs.Stretch
import Mathlib.Algebra.GroupWithZero.Nat

/-!
# Offsets in a rewritten text

Edits move the offsets behind them. What stood between two offsets of the source, both of them
inside of no span, stands between the moved offsets of the text that comes out, with the edits
between them made. Moving keeps the order of such offsets.
-/

namespace Codemod.Edit

open Text

/-- Where an offset comes to stand: the edits before it have put in their texts for their spans. -/
def moved (es : List Edit) (p : Nat) : Nat :=
  let before := es.filter fun e => decide (e.stop ≤ (p : Int))
  p + (before.map fun e => byteLength e.text).sum
    - (before.map fun e => (e.stop - e.start).toNat).sum

/-- The edits between two offsets. -/
def between (es : List Edit) (a b : Nat) : List Edit :=
  es.filter fun e => decide ((a : Int) ≤ e.start) && decide (e.stop ≤ (b : Int))

/-- Edits in order that can be committed, none of them with an empty span or an empty text. -/
structure Batch (source : List Char) (es : List Edit) : Prop where
  line : InLine (byteLength source) 0 es
  bounds : ∀ e ∈ es, e.OnBoundaries source
  solid : ∀ e ∈ es, e.start < e.stop ∧ e.text ≠ []

/-- An offset between characters that lies inside of no span. -/
structure Mark (source : List Char) (es : List Edit) (p : Nat) : Prop where
  boundary : Boundary source p
  outside : ∀ e ∈ es, e.stop ≤ p ∨ p ≤ e.start

variable {source : List Char} {es : List Edit} {a b p r : Nat}

/-- The length of a stretch: the texts count instead of the spans. -/
theorem byteLength_rewriteUpTo (hr : Boundary source r) (hp : Boundary source p) (hrp : r ≤ p)
    (hb : ∀ e ∈ es, e.OnBoundaries source) (hline : InLine p r es) :
  byteLength (rewriteUpTo source p r es) + (r + (es.map fun e => (e.stop - e.start).toNat).sum)
    = p + (es.map fun e => byteLength e.text).sum
  := by
  induction es generalizing r with
  | nil =>
    have := hr.byteLength_slice hp hrp
    simp only [rewriteUpTo, List.map_nil, List.sum_nil]
    omega
  | cons e es ih =>
    obtain ⟨hbe, hb⟩ := List.forall_mem_cons.mp hb
    obtain ⟨hre, hee, hep⟩ := hline.reached_le List.mem_cons_self
    obtain ⟨hstart, hspan, -, hline⟩ := inLine_cons.mp hline
    have hnat : (e.stop.toNat : Int) = e.stop := by omega
    have hrest := ih hbe.stop hep hb (hnat ▸ hline)
    have hgap := hr.byteLength_slice hbe.start hre
    simp only [rewriteUpTo, byteLength_append, List.map_cons, List.sum_cons]
    omega

/-- The edits between two offsets can be taken one after the other. -/
theorem Batch.inLine_between (h : Batch source es) (a b : Nat) :
  InLine b a (between es a b)
  := by
  constructor
  · intro e he
    obtain ⟨he, hspan⟩ := List.mem_filter.mp he
    have := h.line.fits e he
    simp only [Bool.and_eq_true, decide_eq_true_iff] at hspan
    omega
  · apply h.line.inTurn.sublist List.filter_sublist

/-- The only edit on the span of an edit is this edit. -/
theorem Batch.between_span (h : Batch source es) {e : Edit} (he : e ∈ es) (ha : e.start = a)
    (hb : e.stop = b) :
  between es a b = [e]
  := by
  obtain ⟨front, back, rfl⟩ := List.append_of_mem he
  obtain ⟨-, hturn, hfront⟩ := List.pairwise_append.mp h.line.inTurn
  obtain ⟨hback, -⟩ := List.pairwise_cons.mp hturn
  have hspan := (h.solid e he).1
  rw [between, List.filter_append, List.filter_eq_nil_iff.mpr, List.filter_cons_of_pos,
    List.filter_eq_nil_iff.mpr, List.nil_append]
  · intro f hf
    have := hback f hf
    have := (h.solid f (by simp [hf])).1
    simp only [Bool.and_eq_true, decide_eq_true_iff]
    omega
  · simp only [Bool.and_eq_true, decide_eq_true_iff]
    omega
  · intro f hf
    have := hfront f hf e List.mem_cons_self
    have := (h.solid f (by simp [hf])).1
    simp only [Bool.and_eq_true, decide_eq_true_iff]
    omega

/-! ### Cuts at marks -/

/-- A batch can be cut at a mark. -/
theorem Batch.exists_cut (h : Batch source es) (hp : Mark source es p) :
  ∃ front back, es = front ++ back ∧ InLine p 0 front ∧ (∀ e ∈ back, p ≤ e.start)
    ∧ (es.filter fun e => decide (e.stop ≤ (p : Int))) = front
  := by
  have hstarts : es.Pairwise fun e f => e.start ≤ f.start := by
    apply h.line.inTurn.imp_of_mem
    intro e f he _ hef
    have := (h.solid e he).1
    omega
  obtain ⟨front, back, rfl, hfront, hback⟩ := Edit.exists_cut hstarts p
  have hends : ∀ e ∈ front, e.stop ≤ p := by
    intro e he
    have := hfront e he
    rcases hp.outside e (List.mem_append_left back he) with hle | hle
    · apply hle
    · omega
  refine ⟨front, back, rfl, ⟨?_, (List.pairwise_append.mp h.line.inTurn).1⟩, hback, ?_⟩
  · intro e he
    obtain ⟨h₁, h₂, -⟩ := h.line.fits e (List.mem_append_left back he)
    exact ⟨h₁, h₂, hends e he⟩
  · rw [List.filter_append, List.filter_eq_self.mpr, List.filter_eq_nil_iff.mpr, List.append_nil]
    · intro e he
      have := hback e he
      have := (h.solid e (List.mem_append_right front he)).1
      simp only [decide_eq_true_iff]
      omega
    · intro e he
      simpa using hends e he

/-- A moved mark is the length of what comes out before it. -/
theorem Batch.moved_eq (h : Batch source es) (hp : Mark source es p) {front back : List Edit}
    (hes : es = front ++ back) (hline : InLine p 0 front)
    (hfront : (es.filter fun e => decide (e.stop ≤ (p : Int))) = front) :
  moved es p = byteLength (rewriteUpTo source p 0 front)
  := by
  have hb : ∀ e ∈ front, e.OnBoundaries source := by
    intro e he
    apply h.bounds
    rw [hes]
    apply List.mem_append_left back he
  have hlength := byteLength_rewriteUpTo (boundary_zero source) hp.boundary (Nat.zero_le p) hb hline
  simp only [moved, hfront]
  omega

/-- The edits before, between and behind two marks. -/
theorem Batch.exists_between (h : Batch source es) (ha : Mark source es a) (hb : Mark source es b)
    (hab : a ≤ b) :
  ∃ front back, es = front ++ between es a b ++ back
    ∧ InLine a 0 front ∧ InLine b 0 (front ++ between es a b) ∧ (∀ e ∈ back, b ≤ e.start)
    ∧ (es.filter fun e => decide (e.stop ≤ (a : Int))) = front
    ∧ (es.filter fun e => decide (e.stop ≤ (b : Int))) = front ++ between es a b
  := by
  obtain ⟨low, back, rfl, hlow, hback, hlowFilter⟩ := h.exists_cut hb
  have hbatch : Batch source low := by
    refine ⟨⟨fun e he => h.line.fits e (List.mem_append_left back he), hlow.inTurn⟩, ?_, ?_⟩
    · exact fun e he => h.bounds e (List.mem_append_left back he)
    · exact fun e he => h.solid e (List.mem_append_left back he)
  obtain ⟨front, mid, rfl, hfront, hmid, hfrontFilter⟩ :=
    hbatch.exists_cut ⟨ha.boundary, fun e he => ha.outside e (List.mem_append_left back he)⟩
  have hbehind : ∀ e ∈ back, (b : Int) < e.stop := by
    intro e he
    have := hback e he
    have := (h.solid e (List.mem_append_right _ he)).1
    omega
  have hbetween : between (front ++ mid ++ back) a b = mid := by
    rw [between, List.filter_append, List.filter_append, List.filter_eq_nil_iff.mpr,
      List.filter_eq_self.mpr, List.filter_eq_nil_iff.mpr, List.nil_append, List.append_nil]
    · intro e he
      have := hbehind e he
      simp only [Bool.and_eq_true, decide_eq_true_iff]
      omega
    · intro e he
      have := hmid e he
      have := hlow.fits e (List.mem_append_right front he)
      simp only [Bool.and_eq_true, decide_eq_true_iff]
      omega
    · intro e he
      have := hfront.fits e he
      have := (hbatch.solid e (List.mem_append_left mid he)).1
      simp only [Bool.and_eq_true, decide_eq_true_iff]
      omega
  rw [hbetween]
  refine ⟨front, back, rfl, hfront, hlow, hback, ?_, hlowFilter⟩
  rw [List.filter_append, hfrontFilter, List.filter_eq_nil_iff.mpr, List.append_nil]
  intro e he
  have := hbehind e he
  simp only [decide_eq_true_iff]
  omega

/-- What comes out is cut at two marks, with the edits between them made in the middle. -/
theorem Batch.exists_parts (h : Batch source es) (ha : Mark source es a) (hb : Mark source es b)
    (hab : a ≤ b) :
  ∃ front back, rewriteFrom source 0 es
      = front ++ rewriteUpTo source b a (between es a b) ++ back
    ∧ byteLength front = moved es a
    ∧ byteLength (front ++ rewriteUpTo source b a (between es a b)) = moved es b
  := by
  obtain ⟨front, back, hes, hfront, hlow, hback, hfrontFilter, hlowFilter⟩ :=
    h.exists_between ha hb hab
  have hbounds : ∀ e ∈ front ++ between es a b ++ back, e.OnBoundaries source :=
    hes ▸ h.bounds
  have hmid : ∀ e ∈ between es a b, a ≤ e.start.toNat :=
    fun e he => ((h.inLine_between a b).reached_le he).1
  have hend : Boundary source (byteLength source) := ⟨source, [], by simp, rfl⟩
  have hcut : rewriteUpTo source b 0 (front ++ between es a b)
      = rewriteUpTo source a 0 front ++ rewriteUpTo source b a (between es a b) := by
    apply rewriteUpTo_append (boundary_zero source) ha.boundary hb.boundary (Nat.zero_le a) hab
      (fun e he => hbounds e (List.mem_append_left back he)) hfront hmid
  have hwhole : rewriteFrom source 0 es = rewriteUpTo source b 0 (front ++ between es a b)
      ++ rewriteUpTo source (byteLength source) b back := by
    rw [rewriteFrom_eq (boundary_zero source) h.bounds]
    conv => lhs; rw [hes]
    apply rewriteUpTo_append (boundary_zero source) hb.boundary hend (Nat.zero_le b) hb.boundary.le
      hbounds hlow
    intro e he
    have := hback e he
    omega
  rw [hcut] at hwhole
  refine ⟨_, _, hwhole, ?_, ?_⟩
  · rw [h.moved_eq ha (hes.trans (List.append_assoc _ _ _)) hfront hfrontFilter]
  · rw [h.moved_eq hb hes hlow hlowFilter, hcut]

/-- What stands between two moved marks. -/
theorem Batch.slice_moved (h : Batch source es) (ha : Mark source es a) (hb : Mark source es b)
    (hab : a ≤ b) :
  slice (rewriteFrom source 0 es) (moved es a) (moved es b)
    = rewriteUpTo source b a (between es a b)
  := by
  obtain ⟨front, back, hresult, hfront, hboth⟩ := h.exists_parts ha hb hab
  rw [hresult, ← hfront, ← hboth, slice_append]

/-- Moving keeps the order of marks. -/
theorem Batch.moved_lt (h : Batch source es) (ha : Mark source es a) (hb : Mark source es b)
    (hab : a < b) :
  moved es a < moved es b
  := by
  obtain ⟨front, back, -, hfront, hboth⟩ := h.exists_parts ha hb (Nat.le_of_lt hab)
  have hne : rewriteUpTo source b a (between es a b) ≠ [] := by
    cases hbetween : between es a b with
    | nil =>
      have hlength := ha.boundary.byteLength_slice hb.boundary (Nat.le_of_lt hab)
      intro hnil
      rw [rewriteUpTo] at hnil
      rw [hnil, byteLength_nil] at hlength
      omega
    | cons e rest =>
      have he : e ∈ es := by
        apply (List.mem_filter.mp (_ : e ∈ between es a b)).1
        simp [hbetween]
      have := (h.solid e he).2
      simp [rewriteUpTo, this]
  have hpos : byteLength (rewriteUpTo source b a (between es a b)) ≠ 0 :=
    fun hzero => hne (eq_nil_of_byteLength hzero)
  rw [byteLength_append] at hboth
  omega

theorem Batch.moved_inj (h : Batch source es) (ha : Mark source es a) (hb : Mark source es b) :
  moved es a = moved es b ↔ a = b
  := by
  constructor
  · intro heq
    rcases Nat.lt_trichotomy a b with hlt | hab | hlt
    · have := h.moved_lt ha hb hlt
      omega
    · apply hab
    · have := h.moved_lt hb ha hlt
      omega
  · rintro rfl
    rfl

end Codemod.Edit
