import Codemod.Proofs.Runs

/-!
# Line breaks of files

The text of a file is read with line feeds for all its line breaks, and is written as it is. So a
file that is changed loses its carriage returns: what is written is the text with the changes made
and with line feeds for all line breaks of the parts between them. It is the text that was read,
but for the changes, exactly when that text has no carriage return.
-/

namespace Codemod

/-! ### Unified line breaks -/

namespace Text

theorem length_unifyBreaks_le (cs : List Char) :
  (unifyBreaks cs).length ≤ cs.length
  := by
  fun_induction unifyBreaks cs with
  | case1 => apply Nat.le_refl
  | case2 cs ih =>
    simp only [List.length_cons]
    omega
  | case3 c cs _ ih => apply Nat.succ_le_succ ih

theorem not_mem_unifyBreaks (cs : List Char) :
  '\r' ∉ unifyBreaks cs
  := by
  fun_induction unifyBreaks cs with
  | case1 => simp
  | case2 cs ih => simpa using ih
  | case3 c cs _ ih =>
    rw [List.mem_cons, not_or]
    refine ⟨?_, ih⟩
    split <;> simp_all [eq_comm]

/-- A text keeps its line breaks exactly when none of them has a carriage return. -/
theorem unifyBreaks_eq_self_iff {cs : List Char} :
  unifyBreaks cs = cs ↔ '\r' ∉ cs
  := by
  constructor
  · intro h
    rw [← h]
    apply not_mem_unifyBreaks
  · fun_induction unifyBreaks cs with
    | case1 => simp
    | case2 cs ih => simp
    | case3 c cs _ ih =>
      rw [List.mem_cons, not_or]
      rintro ⟨hc, hcs⟩
      rw [if_neg (Ne.symm hc), ih hcs]

/-- Where there is a carriage return, there is a line feed afterwards. -/
theorem unifyBreaks_eq_self_of_not_mem {cs : List Char} (h : '\n' ∉ unifyBreaks cs) :
  unifyBreaks cs = cs
  := by
  fun_induction unifyBreaks cs with
  | case1 => rfl
  | case2 cs ih => simp at h
  | case3 c cs _ ih =>
    rw [List.mem_cons, not_or] at h
    rw [ih h.2]
    split
    next hc => simp [hc] at h
    next => rfl

/-- A cut of the unified text comes from a cut of the text. -/
theorem exists_append_of_unifyBreaks {cs front back : List Char}
    (h : unifyBreaks cs = front ++ back) :
  ∃ front' back', cs = front' ++ back' ∧ unifyBreaks front' = front ∧ unifyBreaks back' = back
  := by
  fun_induction unifyBreaks cs generalizing front with
  | case1 =>
    obtain ⟨rfl, rfl⟩ := List.append_eq_nil_iff.mp h.symm
    exact ⟨[], [], rfl, rfl, rfl⟩
  | case2 cs ih =>
    rcases List.cons_eq_append_iff.mp h with ⟨rfl, hback⟩ | ⟨front, rfl, hrest⟩
    · exact ⟨[], '\r' :: '\n' :: cs, rfl, rfl, hback.symm⟩
    · obtain ⟨front', back', rfl, rfl, rfl⟩ := ih hrest
      exact ⟨'\r' :: '\n' :: front', back', rfl, rfl, rfl⟩
  | case3 c cs hc ih =>
    rcases List.cons_eq_append_iff.mp h with ⟨rfl, hback⟩ | ⟨front, rfl, hrest⟩
    · refine ⟨[], c :: cs, rfl, rfl, ?_⟩
      rw [unifyBreaks, hback]
      apply hc
    · obtain ⟨front', back', rfl, rfl, rfl⟩ := ih hrest
      refine ⟨c :: front', back', rfl, ?_, rfl⟩
      rw [unifyBreaks]
      intro rest hbreak heq
      apply hc (rest ++ back') hbreak
      rw [heq, List.cons_append]

end Text

/-- Different texts have different bytes. -/
theorem Utf8.encode_inj {s t : List Char} :
  encode s = encode t ↔ s = t
  := by
  constructor
  · intro h
    have hdecode := congrArg decode h
    rw [decode_encode, decode_encode] at hdecode
    apply Except.ok.inj hdecode
  · rintro rfl
    rfl

/-! ### Pieces -/

/-- A part of a text that is kept, with a part behind it that gives way to a new one. -/
structure Piece where
  kept : List Char
  old : List Char
  new : List Char

namespace Piece

/-- The text with the old parts. -/
def before (pieces : List Piece) (rest : List Char) : List Char :=
  pieces.flatMap (fun piece => piece.kept ++ piece.old) ++ rest

/-- The text with the new parts. -/
def after (pieces : List Piece) (rest : List Char) : List Char :=
  pieces.flatMap (fun piece => piece.kept ++ piece.new) ++ rest

/-- A piece with line feeds for the line breaks of the text. -/
def unify (piece : Piece) : Piece :=
  ⟨Text.unifyBreaks piece.kept, Text.unifyBreaks piece.old, piece.new⟩

/-- Pieces of the unified text come from pieces of the text. -/
theorem exists_of_unifyBreaks {cs : List Char} {pieces : List Piece} {rest : List Char}
    (h : Text.unifyBreaks cs = before pieces rest) :
  ∃ pieces' rest', cs = before pieces' rest' ∧ pieces'.map unify = pieces
    ∧ Text.unifyBreaks rest' = rest
  := by
  induction pieces generalizing cs with
  | nil => exact ⟨[], cs, rfl, rfl, h⟩
  | cons piece pieces ih =>
    rw [before, List.flatMap_cons, List.append_assoc, List.append_assoc] at h
    obtain ⟨kept, back, rfl, hkept, hback⟩ := Text.exists_append_of_unifyBreaks h
    obtain ⟨old, back, rfl, hold, hback⟩ := Text.exists_append_of_unifyBreaks hback
    obtain ⟨pieces', rest', rfl, hpieces, hrest⟩ := ih hback
    refine ⟨⟨kept, old, piece.new⟩ :: pieces', rest', ?_, ?_, hrest⟩
    · simp [before]
    · rw [List.map_cons, hpieces, unify, hkept, hold]

/-- The length of the text with the new parts does not grow when line breaks are unified. -/
theorem length_after_unify_le (pieces : List Piece) (rest : List Char) :
  (after (pieces.map unify) (Text.unifyBreaks rest)).length ≤ (after pieces rest).length
  := by
  induction pieces with
  | nil => apply Text.length_unifyBreaks_le
  | cons piece pieces ih =>
    have := Text.length_unifyBreaks_le piece.kept
    simp only [after, List.map_cons, List.flatMap_cons, List.length_append, unify] at ih ⊢
    omega

/-- A text has a carriage return where what is kept has one, when the old parts have none. -/
theorem not_mem_before_iff {pieces : List Piece} (hold : ∀ piece ∈ pieces, '\r' ∉ piece.old)
    (rest : List Char) :
  '\r' ∉ before pieces rest ↔ (∀ piece ∈ pieces, '\r' ∉ piece.kept) ∧ '\r' ∉ rest
  := by
  rw [before, List.mem_append, not_or, List.mem_flatMap]
  apply and_congr_left
  intro _
  constructor
  · intro h piece hpiece hmem
    exact h ⟨piece, hpiece, List.mem_append_left _ hmem⟩
  · rintro h ⟨piece, hpiece, hmem⟩
    rcases List.mem_append.mp hmem with hmem | hmem
    · apply h piece hpiece hmem
    · apply hold piece hpiece hmem

/-- What is kept comes out the same exactly when it has no carriage return. -/
theorem after_unify_eq_iff (pieces : List Piece) (rest : List Char) :
  after (pieces.map unify) (Text.unifyBreaks rest) = after pieces rest
    ↔ (∀ piece ∈ pieces, '\r' ∉ piece.kept) ∧ '\r' ∉ rest
  := by
  induction pieces with
  | nil => simp [after, Text.unifyBreaks_eq_self_iff]
  | cons piece pieces ih =>
    have hkept := Text.length_unifyBreaks_le piece.kept
    have hrest := length_after_unify_le pieces rest
    simp only [after, List.map_cons, List.flatMap_cons, List.append_assoc, unify,
      List.forall_mem_cons, and_assoc] at ih hrest ⊢
    rw [← ih, ← Text.unifyBreaks_eq_self_iff]
    constructor
    · intro h
      have hlength := congrArg List.length h
      simp only [List.length_append] at hlength hrest
      obtain ⟨hfirst, hback⟩ := List.append_inj h (by omega)
      exact ⟨hfirst, List.append_cancel_left hback⟩
    · rintro ⟨hfirst, hback⟩
      rw [hfirst, hback]

end Piece

/-! ### Edits and pieces -/

/-- Edits that are made one after the other cut the text into pieces. -/
theorem Edit.exists_replaced {source : List Char} {r : Nat} {es : List Edit}
    (hr : Text.Boundary source r) (hb : ∀ e ∈ es, e.OnBoundaries source)
    (hline : InLine (Text.byteLength source) r es) :
  ∃ pieces rest, pieces.map Piece.new = es.map Edit.text
    ∧ pieces.map Piece.old = es.map (fun e => Text.slice source e.start.toNat e.stop.toNat)
    ∧ Text.dropBytes source r = Piece.before pieces rest
    ∧ rewriteFrom source r es = Piece.after pieces rest
  := by
  induction es generalizing r with
  | nil => exact ⟨[], Text.dropBytes source r, rfl, rfl, rfl, rfl⟩
  | cons e es ih =>
    obtain ⟨he, hb⟩ := List.forall_mem_cons.mp hb
    obtain ⟨hstart, hspan, -, hes⟩ := inLine_cons.mp hline
    have hnat : (e.stop.toNat : Int) = e.stop := by omega
    obtain ⟨pieces, rest, hnew, hold, hsource, hresult⟩ := ih he.stop hb (hnat ▸ hes)
    refine ⟨⟨Text.slice source r e.start.toNat, Text.slice source e.start.toNat e.stop.toNat,
      e.text⟩ :: pieces, rest, ?_, ?_, ?_, ?_⟩
    · rw [List.map_cons, List.map_cons, hnew]
    · rw [List.map_cons, List.map_cons, hold]
    · rw [hr.dropBytes_eq he.start (by omega), he.start.dropBytes_eq he.stop (by omega), hsource]
      simp [Piece.before]
    · rw [rewriteFrom, hresult]
      simp [Piece.after]

namespace Rename

variable {c : Rename} {d : Document} {dialect : Grammar.Dialect}

/-- An edit replaces the name of the property, which stays on its line. -/
theorem replaced_of_mem_edits (hd : d.WellRead dialect) {e : Edit} (he : e ∈ c.edits d) :
  Text.slice d.text e.start.toNat e.stop.toNat = c.property ∧ '\n' ∉ c.property
    ∧ (e.text = c.replacement ∨ e.text = c.replacement ++ ", ".toList ++ c.property)
  := by
  obtain ⟨n, text, hword, heq, hchange⟩ := mem_edits hd he
  have hslice : Text.slice d.text e.start.toNat e.stop.toNat = d.textOf n := by
    rw [heq]
    rfl
  have htext : d.textOf n = c.property
      ∧ (e.text = c.replacement ∨ e.text = c.replacement ++ ", ".toList ++ c.property) := by
    rw [← hslice]
    cases hchange with
    | renamed h => exact ⟨h.text, .inl rfl⟩
    | kept h => exact ⟨h.text, .inr rfl⟩
  exact ⟨hslice.trans htext.1, htext.1 ▸ hd.unbroken_word hword, htext.2⟩

/-- The pieces that the edits cut a text into. -/
theorem exists_pieces (c : Rename) (hd : d.WellRead dialect) :
  ∃ pieces rest, pieces.map Piece.new = (c.changes d).map Edit.text
    ∧ (∀ piece ∈ pieces, piece.old = c.property ∧ '\n' ∉ c.property
      ∧ (piece.new = c.replacement ∨ piece.new = c.replacement ++ ", ".toList ++ c.property))
    ∧ d.text = Piece.before pieces rest
    ∧ Edit.rewriteFrom d.text 0 (c.changes d) = Piece.after pieces rest
  := by
  obtain ⟨hcompatible, hbounds⟩ := compatible_edits c hd
  have hperm := Edit.perm_inOrder (c.edits d)
  have hline := (Edit.compatible_iff_inLine (Edit.pairwise_inOrder _)).mp
    (Edit.compatible_inOrder.mpr hcompatible)
  obtain ⟨pieces, rest, hnew, hold, hsource, hresult⟩ :=
    Edit.exists_replaced (Text.boundary_zero d.text)
      (fun e he => hbounds e (hperm.mem_iff.mp he)) hline
  have hzero : Text.dropBytes d.text 0 = d.text := by cases d.text <;> rfl
  refine ⟨pieces, rest, hnew, ?_, hzero.symm.trans hsource, hresult⟩
  intro piece hpiece
  obtain ⟨e, he, heold⟩ := List.mem_map.mp (hold ▸ List.mem_map_of_mem hpiece)
  obtain ⟨e', he', henew⟩ := List.mem_map.mp (hnew ▸ List.mem_map_of_mem hpiece)
  obtain ⟨hproperty, hunbroken, -⟩ := replaced_of_mem_edits hd (hperm.mem_iff.mp he)
  obtain ⟨-, -, htext⟩ := replaced_of_mem_edits hd (hperm.mem_iff.mp he')
  rw [henew] at htext
  exact ⟨heold.symm.trans hproperty, hunbroken, htext⟩

end Rename

/-! ### Files -/

namespace Run

/-- A file that is changed is well formed, and its new text has the changes made. -/
theorem fate_rename {c : Rename} {path : Path} {bytes : List UInt8} {text new : List Char}
    (htext : Utf8.decode bytes = .ok text) (h : fate c.run path bytes = .changed new) :
  ∃ language d, path.language? = some language
    ∧ Document.parse (Text.unifyBreaks text) language (some (String.ofList path.render)) false
      = .ok d
    ∧ new = Edit.rewriteFrom d.text 0 (c.changes d)
  := by
  rw [fate, Utf8.decodeText, htext] at h
  simp only [Except.map, Change.applyToFile] at h
  cases hlanguage : path.language? with
  | none => simp [hlanguage] at h
  | some language =>
    simp only [hlanguage, Change.apply] at h
    cases hparse : Document.parse (Text.unifyBreaks text) language
        (some (String.ofList path.render)) false with
    | error e => simp [hparse] at h
    | ok d =>
      refine ⟨language, d, rfl, hparse, ?_⟩
      obtain ⟨-, dialect, hd⟩ := Document.wellRead_of_parse hparse
      simp only [hparse, c.result_run hd] at h
      split at h
      · cases h
      · rw [Fate.ofText] at h
        split at h
        · cases h
        · cases h
          rfl

/-- Renaming writes the text of a file with the changes made and with line feeds for all line
breaks. These are the bytes of the file but for the changes exactly when it has no carriage
return. -/
theorem applyTo_line_breaks (c : Rename) {f : Folder} {path : Path} {place : List (List Char)}
    {bytes : List UInt8} {text : List Char} (hf : f.Proper)
    (hpath : f.locate path = some (place, .file bytes)) (htext : Utf8.decode bytes = .ok text) :
  ∃ o, applyTo c.run false f path = .ok o
    ∧ ((∃ error, o.results.map FileResult.verdict = [(path, false, error)] ∧ o.folder = f)
    ∨ ∃ language d pieces rest, path.language? = some language
      ∧ Document.parse (Text.unifyBreaks text) language (some (String.ofList path.render)) false
        = .ok d
      ∧ o.results.map FileResult.verdict = [(path, true, none)]
      ∧ text = Piece.before pieces rest
      ∧ pieces.map Piece.new = (Edit.inOrder (c.edits d)).map Edit.text
      ∧ (∀ piece ∈ pieces, piece.old = c.property
        ∧ (piece.new = c.replacement ∨ piece.new = c.replacement ++ ", ".toList ++ c.property))
      ∧ o.folder = f.revise (.single place
        (Utf8.encode (Piece.after (pieces.map Piece.unify) (Text.unifyBreaks rest))))
      ∧ (Utf8.encode (Piece.after (pieces.map Piece.unify) (Text.unifyBreaks rest))
        = Utf8.encode (Piece.after pieces rest) ↔ '\r' ∉ text))
  := by
  obtain ⟨o, hrun, hsettled⟩ := applyTo_settled (contained_rename c) false hf hpath
  have hresults := hsettled.results
  have hfolder := hsettled.folder
  refine ⟨o, hrun, ?_⟩
  rw [if_neg Bool.false_ne_true] at hfolder
  cases hfate : fate c.run path bytes with
  | failed reason =>
    rw [hfate] at hresults hfolder
    exact .inl ⟨_, hresults, hfolder.trans (Folder.revise_id f)⟩
  | kept =>
    rw [hfate] at hresults hfolder
    exact .inl ⟨_, hresults, hfolder.trans (Folder.revise_id f)⟩
  | changed new =>
    rw [hfate] at hresults hfolder
    obtain ⟨language, d, hlanguage, hparse, rfl⟩ := fate_rename htext hfate
    obtain ⟨hunified, dialect, hd⟩ := Document.wellRead_of_parse hparse
    obtain ⟨unified, rest', hnew, hpieces, hbefore, hafter⟩ := c.exists_pieces hd
    obtain ⟨pieces, rest, hsource, rfl, rfl⟩ :=
      Piece.exists_of_unifyBreaks (hunified.symm.trans hbefore)
    have hold : ∀ piece ∈ pieces, piece.old = c.property
        ∧ (piece.new = c.replacement ∨ piece.new = c.replacement ++ ", ".toList ++ c.property) := by
      intro piece hpiece
      obtain ⟨hold, hunbroken, htext⟩ := hpieces _ (List.mem_map_of_mem hpiece)
      rw [← hold] at hunbroken
      exact ⟨(Text.unifyBreaks_eq_self_of_not_mem hunbroken).symm.trans hold, htext⟩
    have hreturn : ∀ piece ∈ pieces, '\r' ∉ piece.old := by
      intro piece hpiece
      rw [(hold piece hpiece).1, ← (hpieces _ (List.mem_map_of_mem hpiece)).1]
      apply Text.not_mem_unifyBreaks
    refine .inr ⟨language, d, pieces, rest, hlanguage, hparse, hresults, hsource, ?_, hold, ?_, ?_⟩
    · rw [List.map_map] at hnew
      apply hnew
    · rw [← hafter]
      apply hfolder
    · rw [hsource, Utf8.encode_inj, Piece.after_unify_eq_iff,
        Piece.not_mem_before_iff hreturn]

set_option maxRecDepth 100000 in
/-- A file with line feeds only keeps all bytes but those of the change. -/
theorem applyTo_line_breaks_kept :
  ∃ o pieces rest, applyTo (Rename.run {}) false
      ⟨[.file "a.js".toList (Utf8.encode "é();\napi.smartGrid.presentModal();\n".toList)]⟩
      (.ofText "a.js".toList) = .ok o
    ∧ "é();\napi.smartGrid.presentModal();\n".toList = Piece.before pieces rest
    ∧ (∀ piece ∈ pieces, piece.old = "smartGrid".toList)
    ∧ o.folder.contentAt (.ofText "a.js".toList) = Utf8.encode (Piece.after pieces rest)
  := by
  have hlocate : Folder.locate
      ⟨[.file "a.js".toList (Utf8.encode "é();\napi.smartGrid.presentModal();\n".toList)]⟩
      (.ofText "a.js".toList) = some (["a.js".toList],
        .file (Utf8.encode "é();\napi.smartGrid.presentModal();\n".toList)) := by
    rfl
  have hverdict : ((applyTo (Rename.run {}) false
      ⟨[.file "a.js".toList (Utf8.encode "é();\napi.smartGrid.presentModal();\n".toList)]⟩
      (.ofText "a.js".toList)).toOption.map fun o => o.results.map FileResult.verdict)
      = some [(.ofText "a.js".toList, true, none)] := by
    decide +kernel
  obtain ⟨o, hrun, h⟩ :=
    applyTo_line_breaks {} (by decide +kernel) hlocate (Utf8.decode_encode _)
  rw [hrun] at hverdict
  have hchanged : o.results.map FileResult.verdict = [(.ofText "a.js".toList, true, none)] :=
    Option.some.inj hverdict
  rcases h with ⟨error, hkept, -⟩ | ⟨-, -, pieces, rest, -, -, -, hbefore, -, hold, hfolder, hbytes⟩
  · rw [hkept] at hchanged
    cases hchanged
  · refine ⟨o, pieces, rest, hrun, hbefore, fun piece hpiece => (hold piece hpiece).1, ?_⟩
    rw [hfolder, Folder.contentAt_revise hlocate, Revision.single, if_pos rfl, hbytes.mpr]
    decide +kernel

set_option maxRecDepth 100000 in
/-- Carriage returns are lost, far from the change as well. -/
theorem applyTo_carriage_returns :
  ((applyTo (Rename.run {}) false ⟨[.file "a.js".toList
      (Utf8.encode "foo();\r\napi.smartGrid.presentModal();\r\n".toList)]⟩
      (.ofText "a.js".toList)).toOption.map (·.folder.contentAt (.ofText "a.js".toList)))
    = some (Utf8.encode "foo();\napi.action.presentModal();\n".toList)
  := by
  decide +kernel

end Run

end Codemod
