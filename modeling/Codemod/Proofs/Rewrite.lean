import Codemod.Proofs.Splice

/-!
# Commits at boundaries

A batch whose spans start and end between characters is committed on the characters of the text:
what comes out is the text with the characters of each span replaced.
-/

namespace Codemod.Edit

/-- The text from an offset on, with the characters in the spans of edits in order replaced. -/
def rewriteFrom (source : List Char) : (reached : Nat) → List Edit → List Char
  | reached, [] => Text.dropBytes source reached
  | reached, e :: es =>
    Text.slice source reached e.start.toNat ++ e.text ++ rewriteFrom source e.stop.toNat es

/-- An edit starts and ends between characters of a text. -/
structure OnBoundaries (source : List Char) (e : Edit) : Prop where
  start : Text.Boundary source e.start.toNat
  stop : Text.Boundary source e.stop.toNat

/-- The pass over bytes gives the bytes of the text that comes out of the pass over characters. -/
theorem spliceFrom_eq_rewriteFrom {source : List Char} {reached : Nat} {es : List Edit}
    (hr : Text.Boundary source reached) (hb : ∀ e ∈ es, e.OnBoundaries source)
    (h : InLine (Text.byteLength source) reached es) :
  spliceFrom (Utf8.encode source) reached es = .ok (Utf8.encode (rewriteFrom source reached es))
  := by
  induction es generalizing reached with
  | nil => rw [spliceFrom, rewriteFrom, hr.encode_dropBytes]
  | cons e es ih =>
    obtain ⟨hrs, hst, htn, hes⟩ := inLine_cons.mp h
    obtain ⟨hs, ht⟩ := hb e List.mem_cons_self
    have hstop : (e.stop.toNat : Int) = e.stop := by omega
    rw [← hstop] at hes
    have hvalid : ¬ (e.stop < e.start || (Utf8.encode source).length < e.stop) = true := by
      simp only [Bool.or_eq_true, decide_eq_true_iff, Utf8.length_encode]
      omega
    rw [spliceFrom, if_neg (by omega), if_neg hvalid,
      ih ht (fun f hf => hb f (List.mem_cons_of_mem e hf)) hes, hr.encode_slice hs (by omega),
      rewriteFrom, Utf8.encode_append, Utf8.encode_append]
    rfl

/-- A batch that can be committed, with its spans between characters, rewrites these spans. -/
theorem apply_eq_rewriteFrom {source : List Char} {edits : List Edit}
    (h : Compatible (Text.byteLength source) edits) (hb : ∀ e ∈ edits, e.OnBoundaries source) :
  apply source edits = .ok (rewriteFrom source 0 (inOrder edits))
  := by
  have hline := (compatible_iff_inLine (pairwise_inOrder edits)).mp (compatible_inOrder.mpr h)
  have hsplice : splice (Utf8.encode source) edits
      = .ok (Utf8.encode (rewriteFrom source 0 (inOrder edits))) := by
    apply spliceFrom_eq_rewriteFrom (Text.boundary_zero source) _ hline
    intro e he
    apply hb e ((perm_inOrder edits).mem_iff.mp he)
  rw [apply_eq, hsplice]
  simp only [Except.bind, Utf8.decode_encode]
  rfl

theorem commit_eq_rewriteFrom {source : List Char} {edits : List Edit} (hne : edits ≠ [])
    (h : Compatible (Text.byteLength source) edits) (hb : ∀ e ∈ edits, e.OnBoundaries source) :
  commit source edits = .ok (some (rewriteFrom source 0 (inOrder edits)))
  := by
  rw [commit, if_neg (by simpa using hne), apply_eq_rewriteFrom h hb]
  rfl

/-- A batch of spans within the text and between characters can be committed exactly when no two of
them overlap, and that two of them do is the only error. -/
theorem commit_cases {source : List Char} {edits : List Edit}
    (hfits : ∀ e ∈ edits, e.Fits (Text.byteLength source))
    (hb : ∀ e ∈ edits, e.OnBoundaries source) :
  (edits.Pairwise Apart ∧ ∃ result, commit source edits = .ok result)
  ∨ (¬ edits.Pairwise Apart
    ∧ ∃ start stop reached, commit source edits = .error (.overlapping start stop reached))
  := by
  by_cases hapart : edits.Pairwise Apart
  · apply Or.inl
    use hapart
    by_cases hempty : edits = []
    · rw [hempty]
      exact ⟨none, rfl⟩
    · exact ⟨_, commit_eq_rewriteFrom hempty ⟨hfits, hapart⟩ hb⟩
  · apply Or.inr
    use hapart
    have hne : edits ≠ [] := by
      rintro rfl
      apply hapart .nil
    have hnot : ¬ Compatible (Utf8.encode source).length edits := fun hc => hapart hc.apart
    obtain ⟨before, e, after, error, horder, -, hfault, herror⟩ := splice_of_not_compatible hnot
    rw [commit, if_neg (by simpa using hne), apply_eq, herror]
    cases hfault with
    | overlapping _ => exact ⟨_, _, _, rfl⟩
    | invalidSpan _ hspan =>
      have he : e ∈ edits := by
        apply (perm_inOrder edits).mem_iff.mp
        simp [horder]
      obtain ⟨-, hle, hlimit⟩ := hfits e he
      rw [Utf8.length_encode] at hspan
      omega

/-- Of a batch in order that can be committed, each edit ends before those behind it. -/
theorem Compatible.inTurn {n : Nat} {edits : List Edit} (h : Compatible n edits) :
  (inOrder edits).Pairwise fun e f => e.stop ≤ f.start
  := ((compatible_iff_inLine (pairwise_inOrder edits)).mp (compatible_inOrder.mpr h)).inTurn

/-- Edits that can be taken one after the other are in order. -/
theorem InLine.inOrder_eq {n : Nat} {reached : Int} {es : List Edit} (h : InLine n reached es) :
  inOrder es = es
  := by
  rw [Edit.inOrder_eq]
  apply List.Pairwise.insertionSort_eq
  apply h.inTurn.imp_of_mem
  intro e f he hf hef
  obtain ⟨-, he', -⟩ := h.fits e he
  obtain ⟨-, hf', -⟩ := h.fits f hf
  rw [precedes_iff]
  omega

/-- The replacement of a node lies within the text and on boundaries. -/
theorem fits_replace {source : List Char} {n : Node} (hstart : Text.Boundary source n.start)
    (hstop : Text.Boundary source n.stop) (hle : n.start ≤ n.stop) (text : List Char) :
  (n.replace text).Fits (Text.byteLength source) ∧ (n.replace text).OnBoundaries source
  := by
  have hlimit := hstop.le
  constructor
  · simp only [Fits, Node.replace]
    omega
  · exact ⟨hstart, hstop⟩

end Codemod.Edit
