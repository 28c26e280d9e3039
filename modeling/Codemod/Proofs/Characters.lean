import Codemod.Proofs.Rewrite

/-!
# Commits on characters

The pass over a batch in order can be made on a row of units of any sort. On the bytes of a text it
is the pass that a commit makes. On the characters of the text, with each offset replaced by the
number of characters before it, it gives the same text, provided that all offsets are boundaries.
-/

namespace Codemod

namespace Text

/-- The number of characters before an offset. -/
def charsBefore (text : List Char) (n : Nat) : Nat := (takeBytes text n).length

theorem charsBefore_zero (text : List Char) :
  charsBefore text 0 = 0
  := by
  cases text <;> rfl

/-- The characters up to an offset. -/
theorem take_charsBefore (text : List Char) (n : Nat) :
  text.take (charsBefore text n) = takeBytes text n
  := by
  have htake : (takeBytes text n ++ dropBytes text n).take (charsBefore text n)
      = takeBytes text n := List.take_left
  rwa [takeBytes_append_dropBytes] at htake

/-- The characters from an offset on. -/
theorem drop_charsBefore (text : List Char) (n : Nat) :
  text.drop (charsBefore text n) = dropBytes text n
  := by
  have hdrop : (takeBytes text n ++ dropBytes text n).drop (charsBefore text n)
      = dropBytes text n := List.drop_left
  rwa [takeBytes_append_dropBytes] at hdrop

theorem charsBefore_le (text : List Char) (n : Nat) :
  charsBefore text n ≤ text.length
  := by
  have hlength := congrArg List.length (takeBytes_append_dropBytes text n)
  rw [List.length_append] at hlength
  apply Nat.le.intro hlength

section Boundaries

variable {text : List Char} {s t : Nat} (hs : Boundary text s) (ht : Boundary text t)

include hs ht

/-- Between two boundaries stand the characters of the part between them. -/
theorem charsBefore_add (h : s ≤ t) :
  charsBefore text t = charsBefore text s + (slice text s t).length
  := by
  rw [charsBefore, hs.takeBytes_eq ht h, List.length_append]
  rfl

theorem charsBefore_le_iff :
  charsBefore text s ≤ charsBefore text t ↔ s ≤ t
  := by
  constructor
  · intro hle
    by_contra hlt
    rw [charsBefore_add ht hs (by omega)] at hle
    have hlength := ht.byteLength_slice hs (by omega)
    rw [List.eq_nil_of_length_eq_zero (l := slice text t s) (by omega), byteLength_nil] at hlength
    omega
  · intro hle
    rw [charsBefore_add hs ht hle]
    apply Nat.le_add_right

/-- The characters between two boundaries. -/
theorem drop_take_charsBefore (h : s ≤ t) :
  (text.take (charsBefore text t)).drop (charsBefore text s) = slice text s t
  := by
  rw [take_charsBefore, hs.takeBytes_eq ht h]
  apply List.drop_left

end Boundaries

end Text

namespace Edit

open Text

/-! ### The pass over units of any sort -/

/-- The units from the place reached on, with edits in order applied to them. A text is inserted as
the units that it is written with. -/
def passFrom {α : Type} (written : List Char → List α) (units : List α) :
    (reached : Nat) → List Edit → Except EditError (List α)
  | reached, [] => .ok (units.drop reached)
  | reached, e :: es =>
    if e.start < reached then
      .error (.overlapping e.start e.stop reached)
    else if e.stop < e.start || units.length < e.stop then
      .error (.invalidSpan e.start e.stop)
    else
      (passFrom written units e.stop.toNat es).map fun rest =>
        (units.take e.start.toNat).drop reached ++ written e.text ++ rest

/-- On bytes, the pass is that of a commit. -/
theorem passFrom_encode (bytes : List UInt8) (reached : Nat) (es : List Edit) :
  passFrom Utf8.encode bytes reached es = spliceFrom bytes reached es
  := by
  induction es generalizing reached with
  | nil => rfl
  | cons e es ih => rw [passFrom, spliceFrom, ih]

/-- The characters of a text after a batch of edits whose positions count characters. -/
def spliceChars (source : List Char) (edits : List Edit) : Except EditError (List Char) :=
  passFrom id source 0 (inOrder edits)

/-- An edit with each offset replaced by the number of characters before it. -/
def inChars (source : List Char) (e : Edit) : Edit :=
  ⟨charsBefore source e.start.toNat, charsBefore source e.stop.toNat, e.text⟩

variable {source : List Char} {reached : Nat} {e f : Edit} {es edits : List Edit}

/-! ### Bytes and characters -/

/-- Edits between characters are in the same order when characters are counted. -/
theorem precedes_inChars (he : e.OnBoundaries source) (hf : f.OnBoundaries source)
    (hestart : 0 ≤ e.start) (hestop : 0 ≤ e.stop) (hfstart : 0 ≤ f.start) (hfstop : 0 ≤ f.stop) :
  e.precedes f = true ↔ (e.inChars source).precedes (f.inChars source) = true
  := by
  have h₁ := charsBefore_le_iff he.start hf.start
  have h₂ := charsBefore_le_iff hf.start he.start
  have h₃ := charsBefore_le_iff he.stop hf.stop
  simp only [precedes_iff, inChars]
  omega

/-- A batch in order, with characters counted, is the batch with characters counted in order. -/
theorem inOrder_inChars (hc : Compatible (byteLength source) edits)
    (hb : ∀ e ∈ edits, e.OnBoundaries source) :
  inOrder (edits.map (inChars source)) = (inOrder edits).map (inChars source)
  := by
  rw [inOrder_eq, inOrder_eq]
  symm
  apply List.map_insertionSort
  intro e he f hf
  obtain ⟨h₁, h₂, -⟩ := hc.fits e he
  obtain ⟨h₃, h₄, -⟩ := hc.fits f hf
  apply precedes_inChars (hb e he) (hb f hf) h₁ (by omega) h₃ (by omega)

/-- The pass over characters gives the text with the characters of each span replaced. -/
theorem passFrom_inChars (hr : Boundary source reached) (hb : ∀ e ∈ es, e.OnBoundaries source)
    (h : InLine (byteLength source) reached es) :
  passFrom id source (charsBefore source reached) (es.map (inChars source))
    = .ok (rewriteFrom source reached es)
  := by
  induction es generalizing reached with
  | nil => rw [List.map_nil, passFrom, drop_charsBefore, rewriteFrom]
  | cons e es ih =>
    obtain ⟨hrs, hst, htn, hes⟩ := inLine_cons.mp h
    obtain ⟨hs, ht⟩ := hb e List.mem_cons_self
    have hstop : (e.stop.toNat : Int) = e.stop := by omega
    rw [← hstop] at hes
    have hrs' := (charsBefore_le_iff hr hs).mpr (by omega)
    have hst' := (charsBefore_le_iff hs ht).mpr (by omega)
    have htn' := charsBefore_le source e.stop.toNat
    have hrest := ih ht (fun f hf => hb f (List.mem_cons_of_mem e hf)) hes
    have hvalid : ¬ ((e.inChars source).stop < (e.inChars source).start
        || source.length < (e.inChars source).stop) = true := by
      simp only [Bool.or_eq_true, decide_eq_true_iff]
      simp only [inChars]
      omega
    rw [List.map_cons, passFrom, if_neg (by simp only [inChars]; omega), if_neg hvalid]
    simp only [inChars, Int.toNat_natCast, id_eq]
    rw [hrest, drop_take_charsBefore hr hs (by omega), rewriteFrom]
    rfl

/-- A batch of valid edits that do not overlap, with all positions between characters, is committed
to the text that the same splice gives on the characters of the source, with each position replaced
by the number of characters before it. -/
theorem apply_eq_spliceChars (hvalid : ∀ e ∈ edits, e.Fits (byteLength source))
    (hapart : edits.Pairwise Apart) (hboundary : ∀ e ∈ edits, e.OnBoundaries source) :
  ∃ text, apply source edits = .ok text
    ∧ spliceChars source (edits.map (inChars source)) = .ok text
  := by
  have hc : Compatible (byteLength source) edits := ⟨hvalid, hapart⟩
  have hline := (compatible_iff_inLine (pairwise_inOrder edits)).mp (compatible_inOrder.mpr hc)
  refine ⟨_, apply_eq_rewriteFrom hc hboundary, ?_⟩
  rw [spliceChars, inOrder_inChars hc hboundary]
  have hordered : ∀ e ∈ inOrder edits, e.OnBoundaries source := by
    intro e he
    apply hboundary e ((perm_inOrder edits).mem_iff.mp he)
  have hpass := passFrom_inChars (boundary_zero source) hordered hline
  rwa [charsBefore_zero] at hpass

/-- A batch over characters of one to four bytes, in the source and in the texts that are put in. -/
theorem apply_eq_spliceChars_wide :
  let source := "añ€😀z".toList
  let edits : List Edit := [⟨6, 10, "ß".toList⟩, ⟨3, 3, "𝄞".toList⟩, ⟨0, 3, []⟩]
  apply source edits = .ok "𝄞€ßz".toList
    ∧ spliceChars source [⟨3, 4, "ß".toList⟩, ⟨2, 2, "𝄞".toList⟩, ⟨0, 2, []⟩]
      = .ok "𝄞€ßz".toList
  := by
  intro source edits
  have hboundary : ∀ e ∈ edits, e.OnBoundaries source := by
    simp only [edits, List.forall_mem_cons]
    refine ⟨⟨⟨"añ€".toList, _, rfl, rfl⟩, ⟨"añ€😀".toList, _, rfl, rfl⟩⟩,
      ⟨⟨"añ".toList, _, rfl, rfl⟩, ⟨"añ".toList, _, rfl, rfl⟩⟩,
      ⟨⟨[], _, rfl, rfl⟩, ⟨"añ".toList, _, rfl, rfl⟩⟩, by simp⟩
  have hvalid : ∀ e ∈ edits, e.Fits (byteLength source) := by decide
  have hapart : edits.Pairwise Apart := by decide
  obtain ⟨text, hbytes, hchars⟩ := apply_eq_spliceChars hvalid hapart hboundary
  have htext : apply source edits = .ok "𝄞€ßz".toList := by
    decide +kernel
  obtain rfl := Except.ok.inj (hbytes.symm.trans htext)
  exact ⟨htext, hchars⟩

end Edit

end Codemod
