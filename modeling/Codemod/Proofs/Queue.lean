import Codemod.Proofs.Splice

/-!
# The order of a queue

The edits of a batch may be queued in any order. Two edits with equal spans that are not empty
cannot both be committed, whichever of them comes first, and the error names their common span only.
So all that matters is the order in which the insertions at one place are queued.
-/

namespace Codemod.Edit

variable {bytes : List UInt8} {reached : Nat} {e f : Edit} {es fs : List Edit}

/-- Edits that may each be taken before the other one have equal spans. -/
theorem span_eq_of_precedes (hef : e.precedes f = true) (hfe : f.precedes e = true) :
  f.start = e.start ∧ f.stop = e.stop
  := by
  rw [precedes_iff] at hef hfe
  omega

/-- An edit that is not an insertion is not among the insertions at a place. -/
theorem hasSpan_of_wide (h : e.start ≠ e.stop) (p : Int) :
  hasSpan p p e = false
  := by
  simp only [hasSpan, Bool.and_eq_false_iff, decide_eq_false_iff_not]
  omega

/-- Two orders of the same edits start with equal spans. -/
theorem span_head_eq (hperm : (e :: es).Perm (f :: fs))
    (hes : (e :: es).Pairwise fun a b => a.precedes b = true)
    (hfs : (f :: fs).Pairwise fun a b => a.precedes b = true) :
  f.start = e.start ∧ f.stop = e.stop
  := by
  have hf : f ∈ e :: es := hperm.mem_iff.mpr List.mem_cons_self
  have he : e ∈ f :: fs := hperm.mem_iff.mp List.mem_cons_self
  rcases List.mem_cons.mp hf with rfl | hf
  · exact ⟨rfl, rfl⟩
  rcases List.mem_cons.mp he with rfl | he
  · exact ⟨rfl, rfl⟩
  apply span_eq_of_precedes (List.rel_of_pairwise_cons hes hf) (List.rel_of_pairwise_cons hfs he)

/-- Behind an edit that is not an insertion, another one with its span overlaps it. -/
theorem spliceFrom_of_repeated (hordered : (e :: es).Pairwise fun a b => a.precedes b = true)
    (hf : f ∈ es) (hspan : f.start = e.start ∧ f.stop = e.stop) (hstart : e.start < reached) :
  spliceFrom bytes reached es = .error (.overlapping e.start e.stop reached)
  := by
  obtain ⟨hfirst, hes⟩ := List.pairwise_cons.mp hordered
  cases es with
  | nil => cases hf
  | cons g gs =>
    -- the next edit stands between the two in the order, so it has their span as well
    have hg : g.start = e.start ∧ g.stop = e.stop := by
      have heg := hfirst g List.mem_cons_self
      rcases List.mem_cons.mp hf with rfl | hf
      · apply hspan
      · have hgf := List.rel_of_pairwise_cons hes hf
        rw [precedes_iff] at heg hgf
        omega
    rw [spliceFrom, if_pos (by omega), hg.1, hg.2]

/-- The pass ends in the same way with either of two edits in front that have one span, each of them
with the other one still to come, unless they are insertions. -/
theorem spliceFrom_rivals (hes : (e :: es).Pairwise fun a b => a.precedes b = true)
    (hfs : (f :: fs).Pairwise fun a b => a.precedes b = true) (hf : f ∈ es) (he : e ∈ fs)
    (hspan : f.start = e.start ∧ f.stop = e.stop) (hwide : e.start ≠ e.stop) :
  spliceFrom bytes reached (e :: es) = spliceFrom bytes reached (f :: fs)
  := by
  rw [spliceFrom, spliceFrom, hspan.1, hspan.2]
  by_cases hover : e.start < reached
  · rw [if_pos hover, if_pos hover]
  rw [if_neg hover, if_neg hover]
  by_cases hvalid : (e.stop < e.start || bytes.length < e.stop) = true
  · rw [if_pos hvalid, if_pos hvalid]
  have hstart : e.start < e.stop.toNat := by
    simp only [Bool.or_eq_true, decide_eq_true_iff] at hvalid
    omega
  rw [if_neg hvalid, if_neg hvalid, spliceFrom_of_repeated hes hf hspan hstart,
    spliceFrom_of_repeated hfs he ⟨hspan.1.symm, hspan.2.symm⟩ (by omega), hspan.1, hspan.2]
  rfl

/-- The pass over two orders of the same edits ends in the same way, provided that the insertions at
each place are taken in the same order. -/
theorem spliceFrom_eq_of_perm (hperm : es.Perm fs)
    (hes : es.Pairwise fun a b => a.precedes b = true)
    (hfs : fs.Pairwise fun a b => a.precedes b = true)
    (hinsertions : ∀ p, es.filter (hasSpan p p) = fs.filter (hasSpan p p)) :
  spliceFrom bytes reached es = spliceFrom bytes reached fs
  := by
  induction es generalizing reached fs with
  | nil => rw [hperm.nil_eq]
  | cons e es ih =>
    cases fs with
    | nil => cases hperm.eq_nil
    | cons f fs =>
      have hspan := span_head_eq hperm hes hfs
      by_cases hsame : f = e
      · subst hsame
        have hrest : ∀ p, es.filter (hasSpan p p) = fs.filter (hasSpan p p) := by
          intro p
          have hp := hinsertions p
          rw [List.filter_cons, List.filter_cons] at hp
          split at hp
          · apply List.tail_eq_of_cons_eq hp
          · apply hp
        rw [spliceFrom, spliceFrom, ih hperm.cons_inv hes.tail hfs.tail hrest]
      · -- insertions would have to come in the same order
        have hwide : e.start ≠ e.stop := by
          intro hempty
          have hp := hinsertions e.start
          rw [List.filter_cons_of_pos (by simp [hasSpan, hempty]),
            List.filter_cons_of_pos (by simp [hasSpan, hspan, hempty])] at hp
          apply hsame (List.head_eq_of_cons_eq hp).symm
        have hf : f ∈ es :=
          (List.mem_cons.mp (hperm.mem_iff.mpr List.mem_cons_self)).resolve_left hsame
        have he : e ∈ fs :=
          (List.mem_cons.mp (hperm.mem_iff.mp List.mem_cons_self)).resolve_left (Ne.symm hsame)
        apply spliceFrom_rivals hes hfs hf he hspan hwide

/-- Two queues of the same edits, with the insertions at each place in the same order, are committed
to the same text or refused with the same error. -/
theorem apply_eq_of_perm (source : List Char) (hperm : es.Perm fs)
    (hinsertions : ∀ p, es.filter (hasSpan p p) = fs.filter (hasSpan p p)) :
  apply source es = apply source fs
  := by
  have hsplice : splice (Utf8.encode source) es = splice (Utf8.encode source) fs := by
    apply spliceFrom_eq_of_perm
    · exact (perm_inOrder es).trans (hperm.trans (perm_inOrder fs).symm)
    · apply pairwise_inOrder
    · apply pairwise_inOrder
    · intro p
      rw [filter_inOrder, filter_inOrder, hinsertions]
  rw [apply_eq, apply_eq, hsplice]

set_option maxRecDepth 2000 in
/-- A queue with two insertions at one place, and a queue with several faults of which the first one
in the order of the spans decides. -/
theorem apply_eq_of_perm_queues :
  let insertions : List Edit := [⟨1, 1, ['p']⟩, ⟨1, 1, ['q']⟩]
  let faults : List Edit := [⟨0, 3, ['y']⟩, ⟨2, 9, []⟩, ⟨0, 3, ['z']⟩, ⟨4, 2, []⟩]
  apply "añb".toList (⟨3, 4, ['x']⟩ :: insertions ++ [⟨0, 1, []⟩]) = .ok "pqñx".toList
  ∧ apply "añb".toList (insertions ++ [⟨0, 1, []⟩, ⟨3, 4, ['x']⟩]) = .ok "pqñx".toList
  ∧ apply "añb".toList faults = .error (.overlapping 0 3 3)
  ∧ apply "añb".toList faults.reverse = .error (.overlapping 0 3 3)
  := by
  intro insertions faults
  have hbatch : apply "añb".toList (⟨3, 4, ['x']⟩ :: insertions ++ [⟨0, 1, []⟩])
      = .ok "pqñx".toList := by
    decide
  have hfaults : apply "añb".toList faults = .error (.overlapping 0 3 3) := by
    decide
  refine ⟨hbatch, ?_, hfaults, ?_⟩
  · rw [← hbatch]
    apply apply_eq_of_perm _ (by decide)
    intro p
    simp [hasSpan_of_wide]
  · rw [← hfaults]
    apply apply_eq_of_perm _ (by decide)
    intro p
    simp [faults, hasSpan_of_wide]

/-- The order of the insertions at one place is the order in which they come out. -/
example : apply "ab".toList [⟨1, 1, ['p']⟩, ⟨1, 1, ['q']⟩] = .ok "apqb".toList
    ∧ apply "ab".toList [⟨1, 1, ['q']⟩, ⟨1, 1, ['p']⟩] = .ok "aqpb".toList := by
  decide

end Codemod.Edit
