import Codemod.Grammar.Script
import Codemod.Proofs.Token

/-!
# The laws of the script grammar

What the rules of the script grammar have in common. No token is empty, words have no line feeds,
words and comments are never nodes over other nodes, and the nodes of markup elements and of imports
have one shape each. All of this is a condition on the single expressions of the grammar, `Lawful`,
which is checked once for every rule.
-/

namespace Codemod.Grammar

/-! ### Tokens are not empty -/

namespace Lexeme

@[simp]
theorem keyword_nil (w : List Char) :
  keyword w [] = 0
  := by
  cases w <;> rfl

@[simp]
theorem sign_nil (w without : List Char) :
  sign w without [] = 0
  := by
  cases w <;> rfl

/-- Scanners of a single sort of token find none in an empty text. -/
theorem scanners_nil (quote : Char) :
  word [] = 0 ∧ name [] = 0 ∧ variableName [] = 0 ∧ privateName [] = 0 ∧ tagName [] = 0
    ∧ number [] = 0 ∧ stringPart quote [] = 0 ∧ escapeSequence [] = 0 ∧ templatePart [] = 0
    ∧ regexPart false [] = 0 ∧ regexFlags [] = 0 ∧ markupText [] = 0 ∧ characterReference [] = 0
    ∧ attributePart quote [] = 0 ∧ commentLength [] = 0
  := ⟨rfl, rfl, rfl, rfl, rfl, rfl, rfl, rfl, rfl, rfl, rfl, rfl, rfl, rfl, rfl⟩

/-! ### Words stay on their line -/

/-- A scanner of tokens without line feeds. -/
def Unbroken (scan : List Char → Nat) : Prop :=
  ∀ cs : List Char, '\n' ∉ cs.take (scan cs)

theorem not_mem_take_countWhile {p : Char → Bool} {c : Char} (hp : p c = false)
    (cs : List Char) :
  c ∉ cs.take (countWhile p cs)
  := by
  induction cs with
  | nil => simp
  | cons d cs ih =>
    rw [countWhile]
    split
    next hd =>
      rw [List.take_succ_cons, List.mem_cons, not_or]
      refine ⟨?_, ih⟩
      rintro rfl
      rw [hp] at hd
      cases hd
    next => simp

@[simp]
theorem unbroken_word :
  Unbroken word
  := by
  rintro (_ | ⟨c, cs⟩)
  · simp
  · rw [word]
    split
    next hc =>
      rw [List.take_succ_cons, List.mem_cons, not_or]
      constructor
      · rintro rfl
        revert hc
        decide
      · apply not_mem_take_countWhile
        decide
    next => simp

@[simp]
theorem unbroken_name :
  Unbroken name
  := by
  intro cs
  rw [name]
  split
  · simp
  · apply unbroken_word

@[simp]
theorem unbroken_variableName :
  Unbroken variableName
  := by
  intro cs
  rw [variableName]
  split
  · simp
  · apply unbroken_name

@[simp]
theorem unbroken_tagName :
  Unbroken tagName
  := by
  intro cs
  have hword := unbroken_word cs
  rw [tagName]
  split
  · simp
  next n hn =>
    rw [hn] at hword
    dsimp only
    split
    · rw [List.take_add, List.mem_append, not_or]
      refine ⟨hword, ?_⟩
      apply not_mem_take_countWhile
      decide
    · apply hword

end Lexeme

namespace Script

/-! ### The condition -/

/-- Kinds of nodes that are single words. -/
def isWord (k : Kind) : Bool :=
  k = .identifier || k = .propertyIdentifier || k = .shorthandPropertyIdentifier
    || k = .shorthandPropertyIdentifierPattern

/-- What the nodes of markup elements and of imports consist of. -/
def bodyOf? : Kind → Option Script
  | .jsxElement => some pairedTags
  | .jsxSelfClosingElement => some emptyTag
  | .jsxOpeningElement => some openingTag
  | .jsxClosingElement => some closingTag
  | .importStatement => some importParts
  | .importClause => some importBindings
  | .namedImports => some importNames
  | _ => none

/-- A step builds no word, no markup, no import and no comment, and a default in an object pattern
follows a name. -/
def LawfulStep : Step Phrase → Prop
  | .mk base kind role _ =>
    isWord kind = false ∧ bodyOf? kind = none
      ∧ (kind = .objectAssignmentPattern → role = some .left
        ∧ ∀ k, base k = true → k = .shorthandPropertyIdentifierPattern)
      ∧ kind ≠ .comment

/-- Tokens are not empty and are no markup and no imports, a word has no line feed, a comment has
its marks, neither is a node over other nodes, markup and imports have their bodies, and steps are
lawful. -/
def Lawful : Script → Prop
  | .leaf kind scan | .rawLeaf kind scan =>
    scan [] = 0 ∧ bodyOf? kind = none ∧ kind ≠ .objectAssignmentPattern
      ∧ (isWord kind = true → Lexeme.Unbroken scan) ∧ (kind = .comment → scan = commentLength)
  | .node kind body =>
    isWord kind = false ∧ kind ≠ .objectAssignmentPattern
      ∧ (∀ expected, bodyOf? kind = some expected → body = expected) ∧ kind ≠ .comment
  | .grow _ steps => ∀ step ∈ steps, LawfulStep step
  | _ => True

/-! ### What the rules share -/

@[simp]
theorem every_kw (w : String) :
  (kw w).Every Lawful
  := ⟨Lexeme.keyword_nil _, rfl, nofun, nofun, nofun⟩

@[simp]
theorem every_sym (w : String) :
  (sym w).Every Lawful
  := ⟨Lexeme.sign_nil _ _, rfl, nofun, nofun, nofun⟩

@[simp]
theorem every_symBut (w without : String) :
  (symBut w without).Every Lawful
  := ⟨Lexeme.sign_nil _ _, rfl, nofun, nofun, nofun⟩

@[simp]
theorem every_rawSym (w : String) :
  (rawSym w).Every Lawful
  := ⟨Lexeme.sign_nil _ _, rfl, nofun, nofun, nofun⟩

variable (p : Script)

@[simp]
theorem every_opt :
  (Peg.opt p).Every Lawful ↔ p.Every Lawful
  := by
  simp [Peg.opt, Peg.Every, Peg.EveryOf]

@[simp]
theorem every_ahead :
  (Peg.ahead p).Every Lawful
  := by
  simp [Peg.ahead, Peg.Every]

@[simp]
theorem every_inParens :
  (inParens p).Every Lawful ↔ p.Every Lawful
  := by
  simp [inParens, Peg.Every, Peg.EveryOf]

@[simp]
theorem every_inSquare :
  (inSquare p).Every Lawful ↔ p.Every Lawful
  := by
  simp [inSquare, Peg.Every, Peg.EveryOf]

@[simp]
theorem every_inBraces :
  (inBraces p).Every Lawful ↔ p.Every Lawful
  := by
  simp [inBraces, openBrace, closeBrace, Peg.Every, Peg.EveryOf]

@[simp]
theorem every_inAngles :
  (inAngles p).Every Lawful ↔ p.Every Lawful
  := by
  simp [inAngles, Peg.Every, Peg.EveryOf]

@[simp]
theorem every_listed :
  (listed p).Every Lawful ↔ p.Every Lawful
  := by
  simp [listed, Peg.Every, Peg.EveryOf]

@[simp]
theorem every_listedLoosely :
  (listedLoosely p).Every Lawful ↔ p.Every Lawful
  := by
  simp [listedLoosely, Peg.Every, Peg.EveryOf]

@[simp]
theorem every_slots :
  (slots p).Every Lawful ↔ p.Every Lawful
  := by
  simp [slots, Peg.Every, Peg.EveryOf]

@[simp]
theorem every_lineEnd (afterOperand : Bool) :
  (lineEnd afterOperand).Every Lawful
  := by
  simp [lineEnd, Peg.Every, Peg.EveryOf, Lawful, isWord, bodyOf?, commentLength]

@[simp]
theorem every_ending (afterOperand : Bool) :
  (ending afterOperand).Every Lawful
  := by
  simp [ending, Peg.Every, Peg.EveryOf]

@[simp]
theorem every_initializer :
  initializer.Every Lawful
  := by
  simp [initializer, Peg.Every, Peg.EveryOf]

@[simp]
theorem every_ascription :
  ascription.Every Lawful
  := by
  simp [ascription, Peg.Every, Peg.EveryOf, Lawful, isWord, bodyOf?]

@[simp]
theorem every_names :
  used.Every Lawful ∧ declared.Every Lawful ∧ anyWord.Every Lawful ∧ typeName.Every Lawful
    ∧ propertyName.Every Lawful ∧ privateName.Every Lawful ∧ label.Every Lawful
    ∧ number.Every Lawful
  := by
  obtain ⟨hword, hname, hvariable, hprivate, -, hnumber, -⟩ := Lexeme.scanners_nil ' '
  simp [used, declared, anyWord, typeName, propertyName, privateName, label, number, Peg.Every,
    Lawful, isWord, bodyOf?, hword, hname, hvariable, hprivate, hnumber]

@[simp]
theorem every_key :
  key.Every Lawful
  := by
  simp [key, Peg.Every, Peg.EveryOf, Lawful, isWord, bodyOf?]

@[simp]
theorem every_signature :
  signature.Every Lawful
  := by
  simp [signature, Peg.Every, Peg.EveryOf]

@[simp]
theorem every_body :
  body.Every Lawful
  := by
  simp [body, Peg.Every]

@[simp]
theorem every_access :
  access.Every Lawful
  := by
  simp [access, Peg.Every, Peg.EveryOf, Lawful, isWord, bodyOf?]

/-! ### Types, statements and values -/

theorem every_typed (phrase : Phrase) :
  (typed phrase).Every Lawful
  := by
  cases phrase <;> simp [typed, functionType, primaryType, typeMember, typeParameter, namedType,
    typeQuery, literalType, predefinedTypes, openBrace, closeBrace, goesOn, Peg.Every,
    Peg.EveryOf, Step.EveryOf, Lawful, LawfulStep, isWord, bodyOf?]

theorem every_performed (phrase : Phrase) :
  (performed phrase).Every Lawful
  := by
  cases phrase <;> simp [performed, statement, jump, tryStatement, switchStatement,
    forInStatement, forStatement, substatement, condition, exportStatement, declaration,
    ambientDeclaration, typeDeclaration, classDeclaration, classTail, functionDeclaration,
    bindings, declarator, exportClause, importStatement, importParts, importAttributes,
    importTaken, importSource, importClause, importBindings, importTargets, importNames, specifier,
    exported, fromSource, openBrace, closeBrace, goesOn, Peg.Every, Peg.EveryOf, Lawful, isWord,
    bodyOf?]

@[simp]
theorem every_arrowFunction :
  arrowFunction.Every Lawful
  := by
  simp [arrowFunction, goesOn, Peg.Every, Peg.EveryOf, Lawful, isWord, bodyOf?]

@[simp]
theorem every_functionExpression :
  functionExpression.Every Lawful
  := by
  simp [functionExpression, goesOn, Peg.Every, Peg.EveryOf, Lawful, isWord, bodyOf?]

@[simp]
theorem every_parameter :
  parameter.Every Lawful
  := by
  simp [parameter, Peg.Every, Peg.EveryOf, Lawful, isWord, bodyOf?]

@[simp]
theorem every_method :
  method.Every Lawful
  := by
  simp [method, modifier, Peg.Every, Peg.EveryOf, Lawful, isWord, bodyOf?]

@[simp]
theorem every_withDefault :
  (withDefault p).Every Lawful ↔ p.Every Lawful
  := by
  simp [withDefault, Peg.Every, Peg.EveryOf, Step.EveryOf, Lawful, LawfulStep, isWord,
    bodyOf?]

@[simp]
theorem every_restPattern :
  restPattern.Every Lawful
  := by
  simp [restPattern, Peg.Every, Peg.EveryOf, Lawful, isWord, bodyOf?]

@[simp]
theorem every_objectPattern :
  objectPattern.Every Lawful
  := by
  obtain ⟨-, hname, -⟩ := Lexeme.scanners_nil ' '
  simp [objectPattern, patternEntry, Peg.Every, Peg.EveryOf, Step.EveryOf, Lawful, LawfulStep,
    isWord, bodyOf?, hname]

@[simp]
theorem every_arrayPattern :
  arrayPattern.Every Lawful
  := by
  simp [arrayPattern, Peg.Every, Lawful, isWord, bodyOf?]

@[simp]
theorem every_tagName :
  tagName.Every Lawful
  := by
  obtain ⟨-, -, -, -, htag, -⟩ := Lexeme.scanners_nil ' '
  simp [tagName, Peg.Every, Peg.EveryOf, Step.EveryOf, Lawful, LawfulStep, isWord, bodyOf?,
    htag]

@[simp]
theorem every_tagString (quote : Char) :
  (tagString quote).Every Lawful
  := by
  obtain ⟨-, -, -, -, -, -, -, -, -, -, -, -, hreference, hpart, -⟩ := Lexeme.scanners_nil quote
  simp [tagString, Peg.Every, Peg.EveryOf, Lawful, isWord, bodyOf?, hreference, hpart]

@[simp]
theorem every_tagFront :
  tagFront.Every Lawful
  := by
  obtain ⟨-, -, -, -, htag, -⟩ := Lexeme.scanners_nil ' '
  simp [tagFront, spacedAttribute, tagAttribute, Peg.Every, Peg.EveryOf, Step.EveryOf, Lawful,
    isWord, bodyOf?, htag]

@[simp]
theorem every_element :
  element.Every Lawful
  := by
  obtain ⟨-, -, -, -, -, -, -, -, -, -, -, htext, hreference, -⟩ := Lexeme.scanners_nil ' '
  simp [element, pairedTags, emptyTag, openingTag, closingTag, elementChild, Peg.Every,
    Peg.EveryOf, Lawful, isWord, bodyOf?, htext, hreference]

@[simp]
theorem every_container :
  container.Every Lawful
  := by
  simp [container, Peg.Every, Peg.EveryOf, Lawful, isWord, bodyOf?]

@[simp]
theorem every_quoted (quote : Char) :
  (quoted quote).Every Lawful
  := by
  obtain ⟨-, -, -, -, -, -, hpart, hescape, -⟩ := Lexeme.scanners_nil quote
  simp [quoted, Peg.Every, Peg.EveryOf, Lawful, isWord, bodyOf?, hpart, hescape]

@[simp]
theorem every_template :
  template.Every Lawful
  := by
  obtain ⟨-, -, -, -, -, -, -, hescape, hpart, -⟩ := Lexeme.scanners_nil ' '
  simp [template, closeBrace, Peg.Every, Peg.EveryOf, Lawful, isWord, bodyOf?, hpart, hescape]

@[simp]
theorem every_regex :
  regex.Every Lawful
  := by
  obtain ⟨-, -, -, -, -, -, -, -, -, hpart, hflags, -⟩ := Lexeme.scanners_nil ' '
  simp [regex, Peg.Every, Peg.EveryOf, Lawful, isWord, bodyOf?, hpart, hflags]

@[simp]
theorem every_spread :
  spread.Every Lawful
  := by
  simp [spread, Peg.Every, Peg.EveryOf, Lawful, isWord, bodyOf?]

theorem every_primary (dialect : Dialect) :
  (primary dialect).Every Lawful
  := by
  cases dialect <;> simp [primary, newExpression, classExpression, parenthesized, Peg.Every,
    Peg.EveryOf, Lawful, isWord, bodyOf?]

theorem every_unary (dialect : Dialect) :
  (unary dialect).Every Lawful
  := by
  cases dialect <;> simp [unary, goesOn, Peg.Every, Peg.EveryOf, Step.EveryOf, Lawful,
    LawfulStep, isWord, bodyOf?]

theorem every_expression (dialect : Dialect) :
  (expression dialect).Every Lawful
  := by
  cases dialect <;> simp [expression, yieldExpression, choice, choiceMark, assignmentSigns,
    Peg.Every, Peg.EveryOf, Step.EveryOf, Lawful, LawfulStep, isWord, bodyOf?]

theorem lawfulStep_binaryStep (level : Nat) (operator : Script) :
  LawfulStep (binaryStep level operator)
  := by
  simp [binaryStep, LawfulStep, isWord, bodyOf?]

/-- Steps whose operators are lawful, whatever their level. -/
theorem everyOf_operatorSteps (level : Nat) :
  (∀ step ∈ operatorSteps level, LawfulStep step) ∧ Step.EveryOf Lawful (operatorSteps level)
  := by
  constructor
  · intro step hstep
    rcases List.mem_append.mp hstep with hstep | hstep
    · obtain ⟨op, -, rfl⟩ := List.mem_map.mp hstep
      apply lawfulStep_binaryStep
    · split at hstep
      · simp only [List.mem_cons, List.not_mem_nil, or_false] at hstep
        rcases hstep with rfl | rfl | rfl | rfl
        · apply lawfulStep_binaryStep
        · apply lawfulStep_binaryStep
        · simp [LawfulStep, isWord, bodyOf?]
        · simp [LawfulStep, isWord, bodyOf?]
      · cases hstep
  · apply Step.everyOf_iff.mpr
    intro base kind role tail hstep
    rcases List.mem_append.mp hstep with hstep | hstep
    · obtain ⟨op, -, heq⟩ := List.mem_map.mp hstep
      cases heq
      simp [Peg.Every, Peg.EveryOf]
    · split at hstep
      · simp only [binaryStep, List.mem_cons, List.not_mem_nil, or_false] at hstep
        rcases hstep with heq | heq | heq | heq
        all_goals
          cases heq
          simp [goesOn, Peg.Every, Peg.EveryOf]
      · cases hstep

theorem every_accessSteps :
  (Peg.grow (.rule .primary) accessSteps).Every Lawful
    ∧ (Peg.grow (.rule .primary) memberSteps).Every Lawful
  := by
  simp [accessSteps, memberSteps, member, index, optionalMark, goesOn, Peg.Every, Peg.EveryOf,
    Step.EveryOf, Lawful, LawfulStep, isWord, bodyOf?]

theorem every_value (dialect : Dialect) (phrase : Phrase) :
  (value dialect phrase).Every Lawful
  := by
  obtain ⟨-, hname, -⟩ := Lexeme.scanners_nil ' '
  obtain ⟨haccess, hmember⟩ := every_accessSteps
  cases phrase with
  | operation level =>
    obtain ⟨hlawful, htails⟩ := everyOf_operatorSteps level
    rw [value, Peg.Every]
    use hlawful, trivial, htails
  | expression => apply every_expression
  | unary => apply every_unary
  | primary => apply every_primary
  | access => apply haccess
  | instantiated => apply hmember
  | _ => simp [value, hname, objectMember, Peg.Every, Peg.EveryOf, Step.EveryOf, Lawful,
      LawfulStep, isWord, bodyOf?]

/-- Every rule of the grammar is lawful. -/
theorem every_rules (dialect : Dialect) (phrase : Phrase) :
  (rules dialect phrase).Every Lawful
  := by
  cases phrase <;> simp only [rules, every_performed, every_typed, every_value]

theorem every_program :
  program.Every Lawful
  := by
  simp [program, Lexeme.hashBang, Peg.Every, Peg.EveryOf, Lawful, isWord, bodyOf?]

theorem Lawful.scan_nil {kind : Kind} {scan : List Char → Nat}
    (h : Lawful (.leaf kind scan) ∨ Lawful (.rawLeaf kind scan)) :
  scan [] = 0
  := by
  rcases h with h | h <;> apply h.1

end Script

/-! ### Nodes with a body -/

section Bodies

open Script

variable {dialect : Dialect} {text : List Char} {t : Tree}

/-- A node of a kind that has a body comes from this body. -/
theorem Known.body {body : Script} (h : Known (rules dialect) Lawful text t)
    (hbody : bodyOf? t.kind = some body) :
  ∃ c c' ts u us, c.At text ∧ Reads (rules dialect) body c ts c'
    ∧ ts.dropWhile isComment = u :: us ∧ t.children = u :: us ∧ t.start = u.start
    ∧ t.stop = stopOf u.stop us
  := by
  obtain ⟨-, -, -, horigin⟩ := h
  cases horigin with
  | comment _ _ hkind _ _ _ =>
    rw [hkind] at hbody
    cases hbody
  | token hq _ _ _ _ _ =>
    rcases hq with hq | hq <;> (rw [hq.2.1] at hbody; cases hbody)
  | node hq hc hreads hdrop hchildren hstart hstop =>
    rw [hq.2.2.1 body hbody] at hreads
    exact ⟨_, _, _, _, _, hc, hreads, hdrop, hchildren, hstart, hstop⟩
  | step hq hmem _ _ _ _ _ _ =>
    rw [(hq _ hmem).2.1] at hbody
    cases hbody

/-- A comment has no parts, and its text is what the scanner of comments takes. -/
theorem Known.comment (h : Known (rules dialect) Lawful text t) (hkind : t.kind = .comment) :
  t.children = [] ∧ ∃ rest n, commentLength rest = n + 1 ∧ t.text text = rest.take (n + 1)
  := by
  obtain ⟨-, -, -, horigin⟩ := h
  cases horigin with
  | comment hc hn _ hstart hstop hchildren =>
    refine ⟨hchildren, _, _, hn, ?_⟩
    rw [Tree.text, hstart, hstop, hc.slice_advance]
  | @token c scan n hq hc hn hstart hstop hchildren =>
    obtain rfl : scan = commentLength := by
      rcases hq with hq | hq
      · apply hq.2.2.2.2 hkind
      · apply hq.2.2.2.2 hkind
    refine ⟨hchildren, _, _, hn, ?_⟩
    rw [Tree.text, hstart, hstop, hc.slice_advance]
  | node hq _ _ _ _ _ _ => cases hq.2.2.2 hkind
  | step hq hmem _ _ _ _ _ _ => cases (hq _ hmem).2.2.2 hkind

/-- A node whose body stands between two signs starts and ends with them, and these are different
children. -/
theorem Known.signs {k₁ k₂ : String} {w₁ v₁ w₂ v₂ : List Char} {p : Script}
    (h : Known (rules dialect) Lawful text t)
    (hbody : bodyOf? t.kind = some (.seq [.leaf (.token k₁) (Lexeme.sign w₁ v₁), p,
      .leaf (.token k₂) (Lexeme.sign w₂ v₂)])) :
  Text.charAt text t.start = w₁.head? ∧ Text.charBefore text t.stop = w₂.getLast?
    ∧ ∃ u v us, t.children = u :: v :: us
  := by
  obtain ⟨c, c', ts, u, us, hc, hreads, hdrop, hchildren, hstart, hstop⟩ := h.body hbody
  obtain ⟨hfirst, mid, v, rfl, hlast⟩ := reads_signs hreads hc hdrop
  rw [hstart, hstop, stopOf_concat]
  refine ⟨hfirst, hlast, ?_⟩
  cases mid with
  | nil => exact ⟨_, _, _, hchildren⟩
  | cons w mid => exact ⟨_, _, _, hchildren⟩

end Bodies

end Codemod.Grammar
