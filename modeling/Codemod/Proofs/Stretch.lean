import Codemod.Proofs.Rewrite

/-!
# Stretches of a rewritten text

A batch in order can be cut at each place that lies inside of none of its spans. The text that comes
out is then cut as well: what the edits before the place give, followed by what those behind it
give. For a batch of insertions the place can be any boundary, and the text that comes out is the
source with the inserted texts between its characters.
-/

namespace Codemod.Edit

open Text

variable {source : List Char} {es fs : List Edit} {e : Edit} {r p limit : Nat}

/-- The text between two offsets, with the characters in the spans of edits in order replaced. -/
def rewriteUpTo (source : List Char) (limit : Nat) : (reached : Nat) → List Edit → List Char
  | reached, [] => slice source reached limit
  | reached, e :: es =>
    slice source reached e.start.toNat ++ e.text ++ rewriteUpTo source limit e.stop.toNat es

/-- Edits that can be taken one after the other start behind the place reached. -/
theorem InLine.reached_le (h : InLine limit r es) (he : e ∈ es) :
  r ≤ e.start.toNat ∧ e.start.toNat ≤ e.stop.toNat ∧ e.stop.toNat ≤ limit
  := by
  have := h.fits e he
  omega

/-! ### Cuts -/

/-- Edits in order can be cut in front of the first one that starts at a place or behind it. -/
theorem exists_cut (h : es.Pairwise fun e f => e.start ≤ f.start) (p : Int) :
  ∃ front back, es = front ++ back ∧ (∀ e ∈ front, e.start < p) ∧ ∀ e ∈ back, p ≤ e.start
  := by
  induction es with
  | nil => exact ⟨[], [], rfl, nofun, nofun⟩
  | cons e es ih =>
    obtain ⟨he, hes⟩ := List.pairwise_cons.mp h
    by_cases hp : e.start < p
    · obtain ⟨front, back, rfl, hfront, hback⟩ := ih hes
      exact ⟨e :: front, back, rfl, List.forall_mem_cons.mpr ⟨hp, hfront⟩, hback⟩
    · refine ⟨[], e :: es, rfl, nofun, List.forall_mem_cons.mpr ⟨by omega, ?_⟩⟩
      intro f hf
      have := he f hf
      omega

/-- What edits behind a place give starts with the text up to this place. -/
theorem rewriteUpTo_of_le (hr : Boundary source r) (hp : Boundary source p)
    (hlimit : Boundary source limit) (hrp : r ≤ p) (hpl : p ≤ limit)
    (hb : ∀ e ∈ fs, e.OnBoundaries source) (h : ∀ e ∈ fs, p ≤ e.start.toNat) :
  rewriteUpTo source limit r fs = slice source r p ++ rewriteUpTo source limit p fs
  := by
  cases fs with
  | nil => apply hr.slice_eq hp hlimit hrp hpl
  | cons f fs =>
    have hstart := (hb f List.mem_cons_self).start
    rw [rewriteUpTo, rewriteUpTo, hr.slice_eq hp hstart hrp (h f List.mem_cons_self)]
    simp only [List.append_assoc]

/-- The text that comes out is cut where the edits are. -/
theorem rewriteUpTo_append (hr : Boundary source r) (hp : Boundary source p)
    (hlimit : Boundary source limit) (hrp : r ≤ p) (hpl : p ≤ limit)
    (hb : ∀ e ∈ es ++ fs, e.OnBoundaries source) (hes : InLine p r es)
    (hfs : ∀ e ∈ fs, p ≤ e.start.toNat) :
  rewriteUpTo source limit r (es ++ fs)
    = rewriteUpTo source p r es ++ rewriteUpTo source limit p fs
  := by
  induction es generalizing r with
  | nil => apply rewriteUpTo_of_le hr hp hlimit hrp hpl hb hfs
  | cons e es ih =>
    obtain ⟨hbe, hb⟩ := List.forall_mem_cons.mp hb
    obtain ⟨-, -, hstop⟩ := hes.reached_le List.mem_cons_self
    obtain ⟨h₁, h₂, -, hes⟩ := inLine_cons.mp hes
    have hnat : (e.stop.toNat : Int) = e.stop := by omega
    rw [List.cons_append, rewriteUpTo, rewriteUpTo, ih hbe.stop hstop hb (hnat ▸ hes)]
    simp only [List.append_assoc]

/-- The text from an offset on is the one up to the end. -/
theorem rewriteFrom_eq (hr : Boundary source r) (hb : ∀ e ∈ es, e.OnBoundaries source) :
  rewriteFrom source r es = rewriteUpTo source (byteLength source) r es
  := by
  have hend : Boundary source (byteLength source) := ⟨source, [], by simp, rfl⟩
  induction es generalizing r with
  | nil =>
    have hrest : dropBytes source (byteLength source) = [] := by
      simpa using dropBytes_append source []
    rw [rewriteFrom, rewriteUpTo, hr.dropBytes_eq hend hr.le, hrest, List.append_nil]
  | cons e es ih =>
    obtain ⟨hbe, hb⟩ := List.forall_mem_cons.mp hb
    rw [rewriteFrom, rewriteUpTo, ih hbe.stop hb]

/-- The text of each edit stands in what comes out. -/
theorem exists_rewriteUpTo_eq (he : e ∈ es) :
  ∃ front back, rewriteUpTo source limit r es = front ++ e.text ++ back
  := by
  induction es generalizing r with
  | nil => cases he
  | cons f fs ih =>
    rcases List.mem_cons.mp he with rfl | he
    · exact ⟨_, _, rfl⟩
    · obtain ⟨front, back, heq⟩ := ih (r := f.stop.toNat) he
      use slice source r f.start.toNat ++ f.text ++ front, back
      rw [rewriteUpTo, heq]
      simp only [List.append_assoc]

/-! ### Insertions -/

/-- An edit that takes nothing away, between two characters of a text. -/
structure Insertion (source : List Char) (e : Edit) : Prop where
  empty : e.stop = e.start
  nonneg : 0 ≤ e.start
  boundary : Boundary source e.start.toNat

theorem Insertion.onBoundaries (h : Insertion source e) :
  e.OnBoundaries source
  := ⟨h.boundary, h.empty ▸ h.boundary⟩

/-- Insertions never overlap. -/
theorem compatible_of_insertions (h : ∀ e ∈ es, Insertion source e) :
  Compatible (byteLength source) es
  := by
  constructor
  · intro e he
    have hempty := (h e he).empty
    have hnonneg := (h e he).nonneg
    have hle := (h e he).boundary.le
    rw [Fits]
    omega
  · apply List.pairwise_of_forall_mem_list
    intro e he f hf
    have he := (h e he).empty
    have hf := (h f hf).empty
    rw [Apart]
    omega

/-- A batch of insertions can always be committed. An empty one leaves the text as it is. -/
theorem commit_insertions (h : ∀ e ∈ es, Insertion source e) :
  ∃ result, commit source es = .ok result
    ∧ result.getD source = rewriteFrom source 0 (inOrder es)
  := by
  by_cases hne : es = []
  · rw [hne]
    refine ⟨none, rfl, ?_⟩
    cases source <;> rfl
  · exact ⟨_, commit_eq_rewriteFrom hne (compatible_of_insertions h)
      fun e he => (h e he).onBoundaries, rfl⟩

/-- What comes out of insertions is the source with the inserted texts between its parts: to delete
them is to get the source back. -/
theorem exists_pieces (hr : Boundary source r) (h : ∀ e ∈ es, Insertion source e)
    (hline : InLine (byteLength source) r es) :
  ∃ (pieces : List (List Char × List Char)) (rest : List Char),
    pieces.map Prod.snd = es.map Edit.text
    ∧ dropBytes source r = pieces.flatMap Prod.fst ++ rest
    ∧ rewriteFrom source r es = pieces.flatMap (fun piece => piece.1 ++ piece.2) ++ rest
  := by
  induction es generalizing r with
  | nil => exact ⟨[], dropBytes source r, rfl, rfl, rfl⟩
  | cons e es ih =>
    obtain ⟨he, h⟩ := List.forall_mem_cons.mp h
    obtain ⟨hrs, -, -, hes⟩ := inLine_cons.mp hline
    have hstop := he.onBoundaries.stop
    have hnat : (e.stop.toNat : Int) = e.stop := by
      have := he.empty
      have := he.nonneg
      omega
    obtain ⟨pieces, rest, htexts, hsource, hresult⟩ := ih hstop h (hnat ▸ hes)
    refine ⟨(slice source r e.start.toNat, e.text) :: pieces, rest, ?_, ?_, ?_⟩
    · rw [List.map_cons, List.map_cons, htexts]
    · rw [hr.dropBytes_eq he.boundary (by omega), List.flatMap_cons, ← he.empty, hsource,
        List.append_assoc]
    · rw [rewriteFrom, hresult, List.flatMap_cons]
      simp only [List.append_assoc]

/-- The insertions around, inside of and behind a stretch of the text, and what they give. -/
theorem exists_stretch {a b : Nat} (ha : Boundary source a) (hb : Boundary source b) (hab : a < b)
    (h : ∀ e ∈ es, Insertion source e) (hline : InLine (byteLength source) 0 es) :
  ∃ front mid back, es = front ++ (mid ++ back)
    ∧ (∀ e ∈ front, e.start ≤ a) ∧ (∀ e ∈ mid, a < e.start ∧ e.start < b)
    ∧ (∀ e ∈ back, b ≤ e.start) ∧ InLine b a mid
    ∧ rewriteFrom source 0 es = rewriteUpTo source a 0 front
      ++ (rewriteUpTo source b a mid ++ rewriteFrom source b back)
  := by
  have hstarts : es.Pairwise fun e f => e.start ≤ f.start := by
    apply hline.inTurn.imp_of_mem
    intro e f he _ hef
    rw [← (h e he).empty]
    apply hef
  obtain ⟨front, rest, rfl, hfront, hrest⟩ := exists_cut hstarts (a + 1)
  obtain ⟨mid, back, rfl, hmid, hback⟩ := exists_cut (List.pairwise_append.mp hstarts).2.1 b
  have hends : ∀ e ∈ front ++ (mid ++ back), e.stop = e.start ∧ 0 ≤ e.start :=
    fun e he => ⟨(h e he).empty, (h e he).nonneg⟩
  have hbounds : ∀ e ∈ front ++ (mid ++ back), e.OnBoundaries source :=
    fun e he => (h e he).onBoundaries
  have hturn := hline.inTurn
  simp only [List.forall_mem_append, List.pairwise_append] at hends hrest hturn
  have hfrontLine : InLine a (0 : Nat) front := by
    refine ⟨?_, hturn.1⟩
    intro e he
    have := hfront e he
    have := hends.1 e he
    omega
  have hmidLine : InLine b a mid := by
    refine ⟨?_, hturn.2.1.1⟩
    intro e he
    have := hmid e he
    have := hrest.1 e he
    have := hends.2.1 e he
    omega
  refine ⟨front, mid, back, rfl, fun e he => by have := hfront e he; omega,
    fun e he => by have := hmid e he; have := hrest.1 e he; omega, hback, hmidLine, ?_⟩
  have hend : Boundary source (byteLength source) := ⟨source, [], by simp, rfl⟩
  have hbackBounds : ∀ e ∈ mid ++ back, e.OnBoundaries source :=
    fun e he => hbounds e (List.mem_append_right front he)
  rw [rewriteFrom_eq (boundary_zero source) hbounds,
    rewriteUpTo_append (boundary_zero source) ha hend (Nat.zero_le a) ha.le hbounds hfrontLine _,
    rewriteUpTo_append ha hb hend (by omega) hb.le hbackBounds hmidLine _, rewriteFrom_eq hb _]
  · exact fun e he => hbackBounds e (List.mem_append_right mid he)
  · intro e he
    have := hback e he
    omega
  · intro e he
    rcases List.mem_append.mp he with he | he
    · have := hrest.1 e he
      omega
    · have := hrest.2 e he
      omega

end Codemod.Edit
