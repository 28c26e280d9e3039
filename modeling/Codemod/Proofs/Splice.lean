import Codemod.Edit.Basic
import Codemod.Proofs.Boundary
import Mathlib.Data.List.Sort

/-!
# The splice of a batch of edits

A batch of edits can be committed when every span lies within the text and no two spans overlap.
This is what the pass over the edits in order finds out by comparing each edit with the place it
has reached. The bytes that come out are those of applying the edits one at a time, from the last
one to the first one.
-/

namespace Codemod.Edit

/-! ### The order of a batch -/

theorem precedes_iff (a b : Edit) :
  a.precedes b = true ↔ a.start < b.start ∨ a.start = b.start ∧ a.stop ≤ b.stop
  := by
  simp [precedes]

instance : Std.Total fun a b : Edit => a.precedes b = true where
  total a b := by
    simp only [precedes_iff]
    omega

instance : IsTrans Edit fun a b => a.precedes b = true where
  trans a b c := by
    simp only [precedes_iff]
    omega

theorem insertInOrder_eq (e : Edit) (es : List Edit) :
  insertInOrder e es = es.orderedInsert (fun a b => a.precedes b = true) e
  := by
  induction es with
  | nil => rfl
  | cons f fs ih => rw [insertInOrder, List.orderedInsert_cons, ih]

/-- Putting a batch in order is sorting it by insertion. -/
theorem inOrder_eq (edits : List Edit) :
  inOrder edits = edits.insertionSort fun a b => a.precedes b = true
  := by
  induction edits with
  | nil => rfl
  | cons e es ih => rw [inOrder, insertInOrder_eq, ih, List.insertionSort_cons]

/-- A batch in order has the edits of the batch. -/
theorem perm_inOrder (edits : List Edit) :
  (inOrder edits).Perm edits
  := by
  rw [inOrder_eq]
  apply List.perm_insertionSort

/-- In a batch in order, each edit may be taken before those behind it. -/
theorem pairwise_inOrder (edits : List Edit) :
  (inOrder edits).Pairwise fun a b => a.precedes b = true
  := by
  rw [inOrder_eq]
  apply List.pairwise_insertionSort

/-- Whether an edit replaces a given span. -/
def hasSpan (s t : Int) (e : Edit) : Bool :=
  e.start = s && e.stop = t

theorem filter_insertInOrder (s t : Int) (e : Edit) (es : List Edit) :
  (insertInOrder e es).filter (hasSpan s t) = (e :: es).filter (hasSpan s t)
  := by
  induction es with
  | nil => rfl
  | cons f fs ih =>
    by_cases h : e.precedes f = true
    · rw [insertInOrder, if_pos h]
    · have hspan : hasSpan s t e = true → hasSpan s t f = false := by
        simp only [precedes_iff] at h
        simp only [hasSpan, Bool.and_eq_true, Bool.and_eq_false_iff, decide_eq_true_iff,
          decide_eq_false_iff_not]
        omega
      rw [insertInOrder, if_neg h, List.filter_cons, ih]
      by_cases he : hasSpan s t e = true
      · simp [he, hspan he]
      · simp [List.filter_cons, he]

/-- Edits with equal spans stay in the order of the batch. -/
theorem filter_inOrder (s t : Int) (edits : List Edit) :
  (inOrder edits).filter (hasSpan s t) = edits.filter (hasSpan s t)
  := by
  induction edits with
  | nil => rfl
  | cons e es ih => rw [inOrder, filter_insertInOrder, List.filter_cons, ih, List.filter_cons]

/-! ### Batches that can be committed -/

/-- The span of an edit lies within a text of `n` bytes. -/
def Fits (n : Nat) (e : Edit) : Prop :=
  0 ≤ e.start ∧ e.start ≤ e.stop ∧ e.stop ≤ n

/-- One of two edits ends where the other one starts, or before. -/
def Apart (e f : Edit) : Prop :=
  e.stop ≤ f.start ∨ f.stop ≤ e.start

instance (n : Nat) (e : Edit) : Decidable (e.Fits n) :=
  inferInstanceAs (Decidable (_ ∧ _ ∧ _))

instance (e f : Edit) : Decidable (e.Apart f) :=
  inferInstanceAs (Decidable (_ ∨ _))

/-- All spans lie within a text of `n` bytes, and no two of them overlap. -/
structure Compatible (n : Nat) (edits : List Edit) : Prop where
  fits : ∀ e ∈ edits, e.Fits n
  apart : edits.Pairwise Apart

theorem Compatible.of_perm {n : Nat} {es fs : List Edit} (h : es.Perm fs)
    (hc : Compatible n es) :
  Compatible n fs
  := by
  constructor
  · intro e he
    apply hc.fits e (h.mem_iff.mpr he)
  · apply (h.pairwise_iff fun {e f} => Or.symm).mp hc.apart

theorem compatible_inOrder {n : Nat} {edits : List Edit} :
  Compatible n (inOrder edits) ↔ Compatible n edits
  := ⟨.of_perm (perm_inOrder edits), .of_perm (perm_inOrder edits).symm⟩

/-- Edits that can be taken one after the other from a place on. -/
structure InLine (n : Nat) (reached : Int) (es : List Edit) : Prop where
  fits : ∀ e ∈ es, reached ≤ e.start ∧ e.start ≤ e.stop ∧ e.stop ≤ n
  inTurn : es.Pairwise fun e f => e.stop ≤ f.start

theorem inLine_nil (n : Nat) (reached : Int) :
  InLine n reached []
  := ⟨by simp, .nil⟩

/-- The step of the pass: what has to hold of the next edit, and of the edits behind it. -/
theorem inLine_cons {n : Nat} {reached : Int} {e : Edit} {es : List Edit} :
  InLine n reached (e :: es) ↔
    reached ≤ e.start ∧ e.start ≤ e.stop ∧ e.stop ≤ n ∧ InLine n e.stop es
  := by
  constructor
  · intro h
    obtain ⟨hr, hs, hn⟩ := h.fits e List.mem_cons_self
    obtain ⟨he, hes⟩ := List.pairwise_cons.mp h.inTurn
    use hr, hs, hn
    constructor
    · intro f hf
      use he f hf
      apply (h.fits f (List.mem_cons_of_mem e hf)).2
    · apply hes
  · rintro ⟨hr, hs, hn, h⟩
    constructor
    · intro f hf
      rcases List.mem_cons.mp hf with rfl | hf
      · use hr, hs
      · obtain ⟨hf', hf''⟩ := h.fits f hf
        use by omega
    · apply List.pairwise_cons.mpr
      use fun f hf => (h.fits f hf).1
      apply h.inTurn

/-- For edits in order, not to overlap is to be one after the other. -/
theorem compatible_iff_inLine {n : Nat} {es : List Edit}
    (h : es.Pairwise fun a b => a.precedes b = true) :
  Compatible n es ↔ InLine n 0 es
  := by
  constructor
  · intro hc
    use hc.fits
    apply (h.and hc.apart).imp_of_mem
    rintro e f he hf ⟨hp, ha⟩
    have hf' := (hc.fits f hf).2.1
    rw [precedes_iff] at hp
    rcases ha with ha | ha <;> omega
  · intro hl
    use hl.fits
    apply hl.inTurn.imp
    intro e f h
    apply Or.inl h

/-! ### The pass over a batch in order -/

/-- The bytes with the span of one edit replaced. -/
def replaceIn (e : Edit) (bytes : List UInt8) : List UInt8 :=
  bytes.take e.start.toNat ++ Utf8.encode e.text ++ bytes.drop e.stop.toNat

/-- The bytes after some edits, applied one at a time from the last one to the first one. -/
def backToFront (es : List Edit) (bytes : List UInt8) : List UInt8 :=
  es.foldr replaceIn bytes

theorem backToFront_cons (e : Edit) (es : List Edit) (bytes : List UInt8) :
  backToFront (e :: es) bytes = replaceIn e (backToFront es bytes)
  := rfl

/-- Lists that agree up to a place agree up to each place before it. -/
theorem take_eq_of_le {α : Type} {as bs : List α} {m k : Nat} (h : as.take m = bs.take m)
    (hk : k ≤ m) :
  as.take k = bs.take k
  := by
  calc as.take k = (as.take m).take k := by rw [List.take_take, Nat.min_eq_left hk]
    _ = bs.take k := by rw [h, List.take_take, Nat.min_eq_left hk]

/-- What follows a place is what stands up to a later place, and what follows that one. -/
theorem drop_eq_append {α : Type} {as : List α} {r s : Nat} (hrs : r ≤ s)
    (hs : s ≤ as.length) :
  as.drop r = (as.take s).drop r ++ as.drop s
  := by
  rw [← List.drop_append_of_le_length (by simp only [List.length_take]; omega),
    List.take_append_drop]

/-- What stands before the place reached is not touched by the edits behind it. -/
theorem take_backToFront {bytes : List UInt8} {r : Nat} {es : List Edit}
    (h : InLine bytes.length r es) (hr : r ≤ bytes.length) :
  (backToFront es bytes).take r = bytes.take r
  := by
  induction es generalizing r with
  | nil => rfl
  | cons e es ih =>
    obtain ⟨hrs, hst, htn, hes⟩ := inLine_cons.mp h
    have hstop : (e.stop.toNat : Int) = e.stop := by omega
    rw [← hstop] at hes
    have hB := ih hes (by omega)
    have hlen : e.stop.toNat ≤ (backToFront es bytes).length := by
      have := congrArg List.length hB
      simp only [List.length_take] at this
      omega
    rw [backToFront_cons, replaceIn, List.append_assoc,
      List.take_append_of_le_length (by simp only [List.length_take]; omega), List.take_take,
      Nat.min_eq_left (by omega)]
    apply take_eq_of_le hB (by omega)

/-- The pass over edits that can be taken one after the other gives what they give from the last
one to the first one. -/
theorem spliceFrom_of_inLine {bytes : List UInt8} {r : Nat} {es : List Edit}
    (h : InLine bytes.length r es) (hr : r ≤ bytes.length) :
  spliceFrom bytes r es = .ok ((backToFront es bytes).drop r)
  := by
  induction es generalizing r with
  | nil => rfl
  | cons e es ih =>
    obtain ⟨hrs, hst, htn, hes⟩ := inLine_cons.mp h
    have hstop : (e.stop.toNat : Int) = e.stop := by omega
    rw [← hstop] at hes
    have hfront : (backToFront es bytes).take e.start.toNat = bytes.take e.start.toNat :=
      take_eq_of_le (take_backToFront hes (by omega)) (by omega)
    have hvalid : ¬ (e.stop < e.start || bytes.length < e.stop) = true := by
      simp only [Bool.or_eq_true, decide_eq_true_iff]
      omega
    rw [spliceFrom, if_neg (by omega), if_neg hvalid, ih hes (by omega),
      backToFront_cons, replaceIn, hfront, List.append_assoc,
      List.drop_append_of_le_length (by simp only [List.length_take]; omega), Except.map,
      List.append_assoc]

/-- The place that is reached behind some edits. -/
def reachedBy (reached : Int) (es : List Edit) : Int :=
  (es.getLast?.map Edit.stop).getD reached

theorem reachedBy_cons (reached : Int) (e : Edit) (es : List Edit) :
  reachedBy reached (e :: es) = reachedBy e.stop es
  := by
  rw [reachedBy, reachedBy, List.getLast?_cons]
  cases es.getLast? <;> rfl

/-- What an edit does wrong at a place, and the error that tells so. -/
inductive Fault (n : Nat) (reached : Int) (e : Edit) : EditError → Prop where
  /-- The edit starts before the place that is reached. -/
  | overlapping (h : e.start < reached) : Fault n reached e (.overlapping e.start e.stop reached)
  /-- The edit does not overlap, but its span is reversed or goes beyond the text. -/
  | invalidSpan (h : reached ≤ e.start) (hspan : e.stop < e.start ∨ n < e.stop) :
    Fault n reached e (.invalidSpan e.start e.stop)

/-- The pass over edits that cannot be taken one after the other ends with the first edit that does
not fit behind those before it. -/
theorem spliceFrom_of_not_inLine {bytes : List UInt8} {r : Nat} {es : List Edit}
    (h : ¬ InLine bytes.length r es) :
  ∃ before e after error, es = before ++ e :: after ∧ InLine bytes.length r before
    ∧ Fault bytes.length (reachedBy r before) e error
    ∧ spliceFrom bytes r es = .error error
  := by
  induction es generalizing r with
  | nil => apply absurd (inLine_nil _ _) h
  | cons e es ih =>
    by_cases hover : e.start < r
    · use [], e, es, .overlapping e.start e.stop r, rfl, inLine_nil _ _, .overlapping hover
      rw [spliceFrom, if_pos hover]
    · by_cases hspan : e.stop < e.start ∨ bytes.length < e.stop
      · use [], e, es, .invalidSpan e.start e.stop, rfl, inLine_nil _ _
        use .invalidSpan (Int.not_lt.mp hover) hspan
        rw [spliceFrom, if_neg hover, if_pos (by simpa using hspan)]
      · have hstop : (e.stop.toNat : Int) = e.stop := by omega
        have hes : ¬ InLine bytes.length e.stop.toNat es := by
          rw [hstop]
          intro hes
          apply h
          apply inLine_cons.mpr
          use by omega, by omega, by omega
        obtain ⟨before, f, after, error, rfl, hbefore, hfault, herror⟩ := ih hes
        rw [hstop] at hbefore hfault
        use e :: before, f, after, error, rfl
        constructor
        · apply inLine_cons.mpr
          use by omega, by omega, by omega
        · constructor
          · rw [reachedBy_cons]
            apply hfault
          · rw [spliceFrom, if_neg hover, if_neg (by simpa using hspan), herror]
            rfl

/-! ### Bytes that no edit touches -/

/-- Whether an offset lies in none of the spans of some edits. -/
def isOutside (edits : List Edit) (i : Nat) : Bool :=
  edits.all fun e => i < e.start || e.stop ≤ i

/-- The bytes from an offset on that lie in none of the spans of some edits. -/
def outsideFrom (edits : List Edit) (offset : Nat) (bytes : List UInt8) : List UInt8 :=
  ((bytes.zipIdx offset).filter fun p => isOutside edits p.2).map Prod.fst

/-- The bytes that lie in none of the spans of some edits. -/
def outside (edits : List Edit) (bytes : List UInt8) : List UInt8 :=
  outsideFrom edits 0 bytes

theorem outsideFrom_append (edits : List Edit) (offset : Nat) (as bs : List UInt8) :
  outsideFrom edits offset (as ++ bs)
    = outsideFrom edits offset as ++ outsideFrom edits (offset + as.length) bs
  := by
  rw [outsideFrom, List.zipIdx_append, List.filter_append, List.map_append]
  rfl

theorem outsideFrom_sublist (edits : List Edit) (offset : Nat) (bytes : List UInt8) :
  (outsideFrom edits offset bytes).Sublist bytes
  := by
  have h := (List.filter_sublist (p := fun p => isOutside edits p.2)
    (l := bytes.zipIdx offset)).map Prod.fst
  rw [List.zipIdx_map_fst] at h
  apply h

theorem outsideFrom_cons_sublist (e : Edit) (es : List Edit) (offset : Nat)
    (bytes : List UInt8) :
  (outsideFrom (e :: es) offset bytes).Sublist (outsideFrom es offset bytes)
  := by
  apply List.Sublist.map
  apply List.monotone_filter_right
  intro p hp
  simp only [isOutside, List.all_cons, Bool.and_eq_true] at hp
  apply hp.2

/-- No byte of a span is outside of it. -/
theorem outsideFrom_span (e : Edit) (es : List Edit) {offset : Nat} {bytes : List UInt8}
    (hs : e.start ≤ offset) (ht : offset + bytes.length ≤ e.stop) :
  outsideFrom (e :: es) offset bytes = []
  := by
  rw [outsideFrom, List.filter_eq_nil_iff.mpr, List.map_nil]
  intro p hp
  have h₁ := List.le_snd_of_mem_zipIdx hp
  have h₂ := List.snd_lt_add_of_mem_zipIdx hp
  simp only [isOutside, List.all_cons, Bool.and_eq_true, Bool.or_eq_true, decide_eq_true_iff]
  omega

/-- The bytes that no edit touches come out in their order. -/
theorem outsideFrom_sublist_backToFront {bytes : List UInt8} {r : Nat} {es : List Edit}
    (h : InLine bytes.length r es) (hr : r ≤ bytes.length) :
  (outsideFrom es r (bytes.drop r)).Sublist ((backToFront es bytes).drop r)
  := by
  induction es generalizing r with
  | nil => apply outsideFrom_sublist
  | cons e es ih =>
    obtain ⟨hrs, hst, htn, hes⟩ := inLine_cons.mp h
    have hstop : (e.stop.toNat : Int) = e.stop := by omega
    rw [← hstop] at hes
    have hfront : (backToFront es bytes).take e.start.toNat = bytes.take e.start.toNat :=
      take_eq_of_le (take_backToFront hes (by omega)) (by omega)
    have hsplit : bytes.drop r = (bytes.take e.start.toNat).drop r
        ++ ((bytes.take e.stop.toNat).drop e.start.toNat ++ bytes.drop e.stop.toNat) := by
      rw [← drop_eq_append (by omega) (by omega), ← drop_eq_append (by omega) (by omega)]
    have hgap : r + ((bytes.take e.start.toNat).drop r).length = e.start.toNat := by
      simp only [List.length_drop, List.length_take]
      omega
    have hspan : e.start.toNat + ((bytes.take e.stop.toNat).drop e.start.toNat).length
        = e.stop.toNat := by
      simp only [List.length_drop, List.length_take]
      omega
    have hnone : outsideFrom (e :: es) e.start.toNat
        ((bytes.take e.stop.toNat).drop e.start.toNat) = [] :=
      outsideFrom_span e es (by omega) (by omega)
    rw [hsplit, outsideFrom_append, hgap, outsideFrom_append, hspan, hnone, List.nil_append,
      backToFront_cons, replaceIn, hfront, List.append_assoc,
      List.drop_append_of_le_length (by simp only [List.length_take]; omega)]
    apply List.Sublist.append (outsideFrom_sublist _ _ _)
    apply List.Sublist.trans _ (List.sublist_append_right _ _)
    apply (outsideFrom_cons_sublist e es _ _).trans (ih hes (by omega))

/-! ### The commit -/

/-- The commit of a batch is its splice, read as a text. -/
theorem apply_eq (source : List Char) (edits : List Edit) :
  apply source edits = (splice (Utf8.encode source) edits).bind fun out =>
    (Utf8.decode out).mapError .undecodable
  := by
  rw [apply]
  cases splice (Utf8.encode source) edits with
  | error e => rfl
  | ok out =>
    simp only [Except.bind]
    cases Utf8.decode out <;> rfl

theorem splice_of_compatible {bytes : List UInt8} {edits : List Edit}
    (h : Compatible bytes.length edits) :
  splice bytes edits = .ok (backToFront (inOrder edits) bytes)
  := by
  have hline := (compatible_iff_inLine (pairwise_inOrder edits)).mp (compatible_inOrder.mpr h)
  apply spliceFrom_of_inLine (r := 0) hline (Nat.zero_le _)

theorem splice_of_not_compatible {bytes : List UInt8} {edits : List Edit}
    (h : ¬ Compatible bytes.length edits) :
  ∃ before e after error, inOrder edits = before ++ e :: after ∧ Compatible bytes.length before
    ∧ Fault bytes.length (reachedBy 0 before) e error ∧ splice bytes edits = .error error
  := by
  have hordered := pairwise_inOrder edits
  rw [← compatible_inOrder, compatible_iff_inLine hordered] at h
  obtain ⟨before, e, after, error, heq, hbefore, hfault, herror⟩ :=
    spliceFrom_of_not_inLine (r := 0) h
  rw [heq] at hordered
  use before, e, after, error, heq
  use (compatible_iff_inLine (List.pairwise_append.mp hordered).1).mpr hbefore
  use hfault, herror

theorem outside_sublist {bytes : List UInt8} {edits : List Edit}
    (h : Compatible bytes.length edits) :
  (outside edits bytes).Sublist (backToFront (inOrder edits) bytes)
  := by
  have hline := (compatible_iff_inLine (pairwise_inOrder edits)).mp (compatible_inOrder.mpr h)
  have hsame : outside edits bytes = outside (inOrder edits) bytes := by
    have : isOutside edits = isOutside (inOrder edits) := by
      funext i
      apply ((perm_inOrder edits).all_eq).symm
    rw [outside, outsideFrom, this]
    rfl
  rw [hsame]
  apply outsideFrom_sublist_backToFront (r := 0) hline (Nat.zero_le _)

/-- A batch can be committed exactly when all its spans lie within the text and no two of them
overlap. The bytes that come out are those of its edits applied one at a time from the last one to
the first one, in the order of the spans and, for equal spans, of the batch; the bytes outside of
all spans are kept in their order. Otherwise the error is that of the first edit in order that does
not fit behind those before it. -/
theorem apply_exact (source : List Char) (edits : List Edit) :
  let bytes := Utf8.encode source
  let n := Text.byteLength source
  let ordered := inOrder edits
  ordered.Perm edits
  ∧ ordered.Pairwise (fun e f => e.start < f.start ∨ e.start = f.start ∧ e.stop ≤ f.stop)
  ∧ (∀ s t, ordered.filter (hasSpan s t) = edits.filter (hasSpan s t))
  ∧ ((∃ out, splice bytes edits = .ok out) ↔
      (∀ e ∈ edits, 0 ≤ e.start ∧ e.start ≤ e.stop ∧ e.stop ≤ n)
      ∧ edits.Pairwise fun e f => e.stop ≤ f.start ∨ f.stop ≤ e.start)
  ∧ (∀ out, splice bytes edits = .ok out →
      out = backToFront ordered bytes
      ∧ (outside edits bytes).Sublist out
      ∧ apply source edits = (Utf8.decode out).mapError .undecodable)
  ∧ (∀ error, splice bytes edits = .error error →
      apply source edits = .error error
      ∧ ∃ before e after, ordered = before ++ e :: after ∧ Compatible n before
        ∧ Fault n (reachedBy 0 before) e error)
  := by
  intro bytes n ordered
  have hn : bytes.length = n := Utf8.length_encode source
  use perm_inOrder edits
  use (pairwise_inOrder edits).imp fun {e f} => (precedes_iff e f).mp
  use fun s t => filter_inOrder s t edits
  by_cases hc : Compatible bytes.length edits
  · have hok := splice_of_compatible hc
    constructor
    · rw [← hn]
      use fun _ => ⟨hc.fits, hc.apart⟩
      use fun _ => ⟨_, hok⟩
    constructor
    · intro out hout
      obtain rfl := Except.ok.inj (hok.symm.trans hout)
      use rfl, outside_sublist hc
      rw [apply_eq, hout]
      rfl
    · intro error herror
      cases hok.symm.trans herror
  · obtain ⟨before, e, after, error, heq, hbefore, hfault, herror⟩ :=
      splice_of_not_compatible hc
    constructor
    · constructor
      · rintro ⟨out, hout⟩
        cases herror.symm.trans hout
      · rw [← hn]
        rintro ⟨hfits, hapart⟩
        apply absurd ⟨hfits, hapart⟩ hc
    constructor
    · intro out hout
      cases herror.symm.trans hout
    · intro error' herror'
      obtain rfl := Except.error.inj (herror.symm.trans herror')
      constructor
      · rw [apply_eq, herror]
        rfl
      · rw [← hn]
        use before, e, after

end Codemod.Edit
