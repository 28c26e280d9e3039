import Codemod.Catalogue

/-!
# Settings laid over settings

What is read from settings can be written down again, and the written settings stand for those that
were read: whatever is laid over the one or the other, the same is read, or the same is wrong. So
to lay settings over a recipe, and others over the recipe that comes of it, is to lay them over at
once.
-/

namespace Codemod

/-! ### Values and fields -/

namespace Checked

variable {α β : Type}

theorem app_eq_ok_iff {f : Checked (α → β)} {a : Checked α} {b : β} :
  f.app a = .ok b ↔ ∃ g x, f = .ok g ∧ a = .ok x ∧ g x = b
  := by
  constructor
  · intro h
    cases f with
    | error ps => cases h
    | ok g =>
      cases a with
      | error ps => cases h
      | ok x =>
        cases h
        exact ⟨g, x, rfl, rfl, rfl⟩
  · rintro ⟨g, x, rfl, rfl, rfl⟩
    rfl

theorem map_eq_ok_iff {f : α → β} {a : Checked α} {b : β} :
  a.map f = .ok b ↔ ∃ x, a = .ok x ∧ f x = b
  := by
  cases a with
  | error ps => simp [Except.map]
  | ok x => simp [Except.map]

end Checked

namespace Value

theorem textsFrom_texts (index : Nat) (ts : List (List Char)) :
  textsFrom index (ts.map text) = .ok ts
  := by
  induction ts generalizing index with
  | nil => rfl
  | cons t ts ih =>
    rw [List.map_cons, textsFrom, ih]
    rfl

/-- Texts that are written as a list are read again. -/
theorem asTexts_ofTexts (ts : List (List Char)) :
  (ofTexts ts).asTexts = .ok ts
  := textsFrom_texts 0 ts

/-- Texts that are written as a list or as nothing are read again. -/
theorem asOptionalTexts_ofTexts (ts : Option (List (List Char))) :
  ((ts.map ofTexts).getD null).asOptionalTexts = .ok ts
  := by
  cases ts with
  | none => rfl
  | some ts =>
    change (ofTexts ts).asTexts.map some = .ok (some ts)
    rw [asTexts_ofTexts]
    rfl

end Value

namespace Settings

variable {α : Type} {s t : Settings} {name : String} {read : Value → Checked α} {default x : α}
  {v : Value}

theorem get?_update (s top : Settings) (name : List Char) :
  (s.update top).get? name = (top.get? name).or (s.get? name)
  := by
  rw [get?, update, List.find?_append, Option.map_or]
  rfl

theorem exists_get? {s : Settings} {e : List Char × Value} (he : e ∈ s) :
  ∃ v, s.get? e.1 = some v
  := by
  have hfound : (s.find? (·.1 = e.1)).isSome := by
    rw [List.find?_isSome]
    exact ⟨e, he, decide_eq_true rfl⟩
  obtain ⟨e', he'⟩ := Option.isSome_iff_exists.mp hfound
  refine ⟨e'.2, ?_⟩
  rw [get?, he', Option.map_some]

theorem update_update (s a b : Settings) :
  (s.update a).update b = s.update (a.update b)
  := (List.append_assoc b a s).symm

theorem field_congr (h : s.get? name.toList = t.get? name.toList) :
  s.field name read default = t.field name read default
  := by
  rw [field, field, h]

/-- A field is read from the value that is given for it. -/
theorem field_eq_ok (hget : s.get? name.toList = some v) (hread : read v = .ok x) :
  s.field name read default = .ok x
  := by
  rw [field, hget]
  change (read v).under _ = .ok x
  rw [hread]
  rfl

/-- A field that reads the same in two settings does so with others laid over both. -/
theorem field_update (h : s.field name read default = t.field name read default)
    (top : Settings) :
  (s.update top).field name read default = (t.update top).field name read default
  := by
  cases htop : top.get? name.toList with
  | none =>
    have hunder (u : Settings) :
        (u.update top).field name read default = u.field name read default := by
      apply field_congr
      rw [get?_update, htop, Option.none_or]
    rw [hunder, hunder, h]
  | some v =>
    apply field_congr
    rw [get?_update, get?_update, htop, Option.some_or, Option.some_or]

end Settings

/-! ### Records of fields -/

/-- What is written as settings can be read, and the written settings stand for any others from
which the same is read. Only the names that are written matter. -/
structure Faithful {α : Type} (write : α → Settings) (read : Settings → Checked α) : Prop where
  read_write (c : α) : read (write c) = .ok c
  read_update {s : Settings} {c : α} (h : read s = .ok c) (top : Settings) :
    read ((write c).update top) = read (s.update top)
  read_congr (c : α) {s t : Settings} (h : ∀ e ∈ write c, s.get? e.1 = t.get? e.1) :
    read s = read t

section Faithful

variable {α : Type} {write : α → Settings} {read : Settings → Checked α} (h : Faithful write read)

include h

/-- Settings laid over what was read from others are laid over these. -/
theorem Faithful.read_twice {c c' : α} {a : Settings} (ha : read ((write c).update a) = .ok c')
    (b : Settings) :
  read ((write c').update b) = read ((write c).update (a.update b))
  := by
  rw [h.read_update ha, Settings.update_update]

/-- Only the values for the names that are written matter in what is laid over. -/
theorem Faithful.read_over_congr (c : α) {a b : Settings}
    (hab : ∀ e ∈ write c, a.get? e.1 = b.get? e.1) :
  read ((write c).update a) = read ((write c).update b)
  := by
  apply h.read_congr c
  intro e he
  rw [Settings.get?_update, Settings.get?_update, hab e he]

/-- Nothing is left of what all names are laid over. -/
theorem Faithful.read_over (c c' : α) :
  read ((write c).update (write c')) = .ok c'
  := by
  rw [← h.read_write c']
  apply h.read_congr c'
  intro e he
  obtain ⟨v, hv⟩ := Settings.exists_get? he
  rw [Settings.get?_update, hv, Option.some_or]

end Faithful

namespace Rename

/-- A renaming is read when each of its fields is. -/
theorem ofSettings_eq_ok_iff {s : Settings} {c : Rename} :
  ofSettings s = .ok c
    ↔ s.field "root_name" Value.asText ({} : Rename).rootName = .ok c.rootName
      ∧ s.field "property" Value.asText ({} : Rename).property = .ok c.property
      ∧ s.field "method" Value.asText ({} : Rename).method = .ok c.method
      ∧ s.field "replacement" Value.asText ({} : Rename).replacement = .ok c.replacement
      ∧ s.field "pass_through" Value.asOptionalTexts ({} : Rename).passThrough = .ok c.passThrough
      ∧ s.field "indirection_functions" Value.asTexts ({} : Rename).indirections
        = .ok c.indirections
      ∧ s.field "strict_indirection" Value.asBool ({} : Rename).strict = .ok c.strict
  := by
  simp only [ofSettings, Checked.app_eq_ok_iff]
  constructor
  · rintro ⟨_, x₇, ⟨_, x₆, ⟨_, x₅, ⟨_, x₄, ⟨_, x₃, ⟨_, x₂, ⟨_, x₁, ⟨⟩, h₁, rfl⟩, h₂, rfl⟩, h₃, rfl⟩,
      h₄, rfl⟩, h₅, rfl⟩, h₆, rfl⟩, h₇, rfl⟩
    exact ⟨h₁, h₂, h₃, h₄, h₅, h₆, h₇⟩
  · rintro ⟨h₁, h₂, h₃, h₄, h₅, h₆, h₇⟩
    exact ⟨_, _, ⟨_, _, ⟨_, _, ⟨_, _, ⟨_, _, ⟨_, _, ⟨_, _, rfl, h₁, rfl⟩, h₂, rfl⟩, h₃, rfl⟩,
      h₄, rfl⟩, h₅, rfl⟩, h₆, rfl⟩, h₇, rfl⟩

theorem ofSettings_settings (c : Rename) :
  ofSettings c.settings = .ok c
  := by
  rw [ofSettings_eq_ok_iff]
  refine ⟨?_, ?_, ?_, ?_, ?_, ?_, ?_⟩
  · exact Settings.field_eq_ok rfl rfl
  · exact Settings.field_eq_ok rfl rfl
  · exact Settings.field_eq_ok rfl rfl
  · exact Settings.field_eq_ok rfl rfl
  · exact Settings.field_eq_ok rfl (Value.asOptionalTexts_ofTexts _)
  · exact Settings.field_eq_ok rfl (Value.asTexts_ofTexts _)
  · exact Settings.field_eq_ok rfl rfl

theorem faithful :
  Faithful settings ofSettings
  where
  read_write := ofSettings_settings
  read_update {s c} h top := by
    obtain ⟨h₁, h₂, h₃, h₄, h₅, h₆, h₇⟩ := ofSettings_eq_ok_iff.mp h
    obtain ⟨k₁, k₂, k₃, k₄, k₅, k₆, k₇⟩ := ofSettings_eq_ok_iff.mp (ofSettings_settings c)
    simp only [ofSettings]
    rw [Settings.field_update (k₁.trans h₁.symm), Settings.field_update (k₂.trans h₂.symm),
      Settings.field_update (k₃.trans h₃.symm), Settings.field_update (k₄.trans h₄.symm),
      Settings.field_update (k₅.trans h₅.symm), Settings.field_update (k₆.trans h₆.symm),
      Settings.field_update (k₇.trans h₇.symm)]
  read_congr c {s t} h := by
    simp only [settings, List.forall_mem_cons] at h
    obtain ⟨h₁, h₂, h₃, h₄, h₅, h₆, h₇, -⟩ := h
    simp only [ofSettings]
    rw [Settings.field_congr h₁, Settings.field_congr h₂, Settings.field_congr h₃,
      Settings.field_congr h₄, Settings.field_congr h₅, Settings.field_congr h₆,
      Settings.field_congr h₇]

end Rename

namespace Unwrap

/-- The removal of a component is read when each of its fields is. -/
theorem ofSettings_eq_ok_iff {s : Settings} {c : Unwrap} :
  ofSettings s = .ok c
    ↔ s.field "package" Value.asText ({} : Unwrap).package = .ok c.package
      ∧ s.field "component" Value.asText ({} : Unwrap).component = .ok c.component
      ∧ s.field "factories" Value.asTexts ({} : Unwrap).factories = .ok c.factories
  := by
  simp only [ofSettings, Checked.app_eq_ok_iff]
  constructor
  · rintro ⟨_, x₃, ⟨_, x₂, ⟨_, x₁, ⟨⟩, h₁, rfl⟩, h₂, rfl⟩, h₃, rfl⟩
    exact ⟨h₁, h₂, h₃⟩
  · rintro ⟨h₁, h₂, h₃⟩
    exact ⟨_, _, ⟨_, _, ⟨_, _, rfl, h₁, rfl⟩, h₂, rfl⟩, h₃, rfl⟩

theorem ofSettings_settings (c : Unwrap) :
  ofSettings c.settings = .ok c
  := by
  rw [ofSettings_eq_ok_iff]
  refine ⟨?_, ?_, ?_⟩
  · exact Settings.field_eq_ok rfl rfl
  · exact Settings.field_eq_ok rfl rfl
  · exact Settings.field_eq_ok rfl (Value.asTexts_ofTexts _)

theorem faithful :
  Faithful settings ofSettings
  where
  read_write := ofSettings_settings
  read_update {s c} h top := by
    obtain ⟨h₁, h₂, h₃⟩ := ofSettings_eq_ok_iff.mp h
    obtain ⟨k₁, k₂, k₃⟩ := ofSettings_eq_ok_iff.mp (ofSettings_settings c)
    simp only [ofSettings]
    rw [Settings.field_update (k₁.trans h₁.symm), Settings.field_update (k₂.trans h₂.symm),
      Settings.field_update (k₃.trans h₃.symm)]
  read_congr c {s t} h := by
    simp only [settings, List.forall_mem_cons] at h
    obtain ⟨h₁, h₂, h₃, -⟩ := h
    simp only [ofSettings]
    rw [Settings.field_congr h₁, Settings.field_congr h₂, Settings.field_congr h₃]

end Unwrap

namespace Inject

/-- The injection of tags is read when each of its fields is. -/
theorem ofSettings_eq_ok_iff {s : Settings} {c : Inject} :
  ofSettings s = .ok c
    ↔ s.field "head_module" Value.asText ({} : Inject).headModule = .ok c.headModule
      ∧ s.field "head_component" Value.asText ({} : Inject).headComponent = .ok c.headComponent
      ∧ s.field "meta_tag" Value.asText ({} : Inject).metaTag = .ok c.metaTag
      ∧ s.field "script_tag" Value.asText ({} : Inject).scriptTag = .ok c.scriptTag
      ∧ s.field "indent_unit" Value.asText ({} : Inject).indentUnit = .ok c.indentUnit
  := by
  simp only [ofSettings, Checked.app_eq_ok_iff]
  constructor
  · rintro ⟨_, x₅, ⟨_, x₄, ⟨_, x₃, ⟨_, x₂, ⟨_, x₁, ⟨⟩, h₁, rfl⟩, h₂, rfl⟩, h₃, rfl⟩, h₄, rfl⟩,
      h₅, rfl⟩
    exact ⟨h₁, h₂, h₃, h₄, h₅⟩
  · rintro ⟨h₁, h₂, h₃, h₄, h₅⟩
    exact ⟨_, _, ⟨_, _, ⟨_, _, ⟨_, _, ⟨_, _, rfl, h₁, rfl⟩, h₂, rfl⟩, h₃, rfl⟩, h₄, rfl⟩, h₅, rfl⟩

theorem ofSettings_settings (c : Inject) :
  ofSettings c.settings = .ok c
  := by
  rw [ofSettings_eq_ok_iff]
  refine ⟨?_, ?_, ?_, ?_, ?_⟩ <;> exact Settings.field_eq_ok rfl rfl

theorem faithful :
  Faithful settings ofSettings
  where
  read_write := ofSettings_settings
  read_update {s c} h top := by
    obtain ⟨h₁, h₂, h₃, h₄, h₅⟩ := ofSettings_eq_ok_iff.mp h
    obtain ⟨k₁, k₂, k₃, k₄, k₅⟩ := ofSettings_eq_ok_iff.mp (ofSettings_settings c)
    simp only [ofSettings]
    rw [Settings.field_update (k₁.trans h₁.symm), Settings.field_update (k₂.trans h₂.symm),
      Settings.field_update (k₃.trans h₃.symm), Settings.field_update (k₄.trans h₄.symm),
      Settings.field_update (k₅.trans h₅.symm)]
  read_congr c {s t} h := by
    simp only [settings, List.forall_mem_cons] at h
    obtain ⟨h₁, h₂, h₃, h₄, h₅, -⟩ := h
    simp only [ofSettings]
    rw [Settings.field_congr h₁, Settings.field_congr h₂, Settings.field_congr h₃,
      Settings.field_congr h₄, Settings.field_congr h₅]

end Inject

/-! ### Recipes -/

namespace Task

/-- The values for the names of its own settings decide what comes of a task. -/
theorem override_congr (t : Task) {a b : Settings}
    (h : ∀ e ∈ t.settings, a.get? e.1 = b.get? e.1) :
  t.override a = t.override b
  := by
  cases t with
  | rename c => rw [override, override, Rename.faithful.read_over_congr c h]
  | unwrap c => rw [override, override, Unwrap.faithful.read_over_congr c h]
  | inject c => rw [override, override, Inject.faithful.read_over_congr c h]

/-- Settings laid over a task one after the other are laid over it at once. -/
theorem override_twice {t t' : Task} {a : Settings} (h : t.override a = .ok t') (b : Settings) :
  t'.override b = t.override (a.update b)
  := by
  cases t with
  | rename c =>
    obtain ⟨c', hc', rfl⟩ := Checked.map_eq_ok_iff.mp h
    rw [override, override, Rename.faithful.read_twice hc']
  | unwrap c =>
    obtain ⟨c', hc', rfl⟩ := Checked.map_eq_ok_iff.mp h
    rw [override, override, Unwrap.faithful.read_twice hc']
  | inject c =>
    obtain ⟨c', hc', rfl⟩ := Checked.map_eq_ok_iff.mp h
    rw [override, override, Inject.faithful.read_twice hc']

theorem override_nil (t : Task) :
  t.override [] = .ok t
  := by
  cases t with
  | rename c => exact Checked.map_eq_ok_iff.mpr ⟨c, Rename.faithful.read_write c, rfl⟩
  | unwrap c => exact Checked.map_eq_ok_iff.mpr ⟨c, Unwrap.faithful.read_write c, rfl⟩
  | inject c => exact Checked.map_eq_ok_iff.mpr ⟨c, Inject.faithful.read_write c, rfl⟩

/-- All settings of a task laid over another task of its sort give the task. -/
theorem override_settings {t u : Task} (h : u.title = t.title) :
  t.override u.settings = .ok u
  := by
  cases t with
  | rename c =>
    cases u with
    | rename c' => exact Checked.map_eq_ok_iff.mpr ⟨c', Rename.faithful.read_over c c', rfl⟩
    | unwrap c' => simp [title] at h
    | inject c' => simp [title] at h
  | unwrap c =>
    cases u with
    | rename c' => simp [title] at h
    | unwrap c' => exact Checked.map_eq_ok_iff.mpr ⟨c', Unwrap.faithful.read_over c c', rfl⟩
    | inject c' => simp [title] at h
  | inject c =>
    cases u with
    | rename c' => simp [title] at h
    | unwrap c' => simp [title] at h
    | inject c' => exact Checked.map_eq_ok_iff.mpr ⟨c', Inject.faithful.read_over c c', rfl⟩

end Task

namespace Catalogue

/-- A listing that takes the place of those of its name. -/
theorem find?_replace (listing : Listing) (ls : List Listing) (other : List Char) :
  (ls.map fun l => if l.name = listing.name then listing else l).find? (·.name = other)
    = (ls.find? (·.name = other)).map fun l => if other = listing.name then listing else l
  := by
  induction ls with
  | nil => rfl
  | cons l ls ih =>
    by_cases hl : l.name = other
    · by_cases hname : other = listing.name
      · simp [hl, hname]
      · simp [hl, hname]
    · by_cases hname : l.name = listing.name
      · have hother : ¬ listing.name = other := by rwa [← hname]
        simpa [List.find?_cons, hl, hname, hother] using ih
      · simpa [List.find?_cons, hl, hname] using ih

variable (c : Catalogue) (name : List Char) (recipe : Recipe) (description : List Char)

/-- A recipe is found under the name that it is put under, and all other names stay as they are. -/
theorem find?_register (other : List Char) :
  (c.register name recipe description).find? other
    = if other = name then some ⟨name, recipe, description⟩ else c.find? other
  := by
  rw [register]
  split
  · rename_i hhas
    obtain ⟨l, hl⟩ := Option.isSome_iff_exists.mp hhas
    rw [find?, find?_replace ⟨name, recipe, description⟩]
    change (c.find? other).map _ = _
    by_cases hother : other = name
    · simp [hother, hl]
    · simp [hother]
  · rename_i hhas
    have hnone : c.find? name = none := Option.not_isSome_iff_eq_none.mp hhas
    rw [find?, List.find?_append]
    change (c.find? other).or _ = _
    by_cases hother : other = name
    · simp [hother, hnone]
    · simp [hother, Ne.symm hother]

theorem get_register_self :
  (c.register name recipe description).get name = .ok recipe
  := by
  rw [get, find?_register, if_pos rfl]

theorem get_register_of_ne {other : List Char} (hother : other ≠ name) {r : Recipe}
    (hget : c.get other = .ok r) :
  (c.register name recipe description).get other = .ok r
  := by
  rw [get] at hget ⊢
  rw [find?_register, if_neg hother]
  cases hfind : c.find? other with
  | none => simp [hfind] at hget
  | some l => simpa [hfind] using hget

end Catalogue

namespace Recipe

/-- Those of some settings whose names a recipe knows. -/
def known (r : Recipe) (s : Settings) : Settings :=
  s.filter fun e => r.task.settings.any (·.1 = e.1)

theorem get?_known {r : Recipe} {e : List Char × Value} (he : e ∈ r.task.settings)
    (s : Settings) :
  (r.known s).get? e.1 = s.get? e.1
  := by
  rw [Settings.get?, Settings.get?, known, List.find?_filter]
  congr 2
  funext e'
  by_cases hname : e'.1 = e.1
  · have hlisted : r.task.settings.any (·.1 = e'.1) = true := by
      rw [List.any_eq_true]
      exact ⟨e, he, decide_eq_true hname.symm⟩
    simp [hlisted]
  · simp [hname]

/-- Settings laid over a recipe one after the other give the same recipe, or are wrong in the same
way, as all of them laid over it at once. No settings leave a recipe as it is, and names that it
does not know make no difference. The new recipe has the name of the recipe, which stays what it is
when the new one is put under another name. All recipes of a sort come of one another in this
way. -/
theorem override_compose (r : Recipe) :
  (∀ (a b : Settings) (r' : Recipe), r.override a = .ok r' →
      r'.override b = r.override (a.update b))
    ∧ r.override [] = .ok r
    ∧ (∀ a : Settings, r.override (r.known a) = r.override a)
    ∧ (∀ (a : Settings) (r' : Recipe), r.override a = .ok r' → r'.name = r.name
      ∧ ∀ (c : Catalogue) (name other text : List Char), c.get name = .ok r → name ≠ other →
        (c.register other r' text).get name = .ok r ∧ (c.register other r' text).get other = .ok r')
    ∧ ∀ t : Task, t.title = r.task.title → r.override t.settings = .ok ⟨r.name, t⟩
  := by
  refine ⟨?_, ?_, ?_, ?_, ?_⟩
  · intro a b r' h
    obtain ⟨t', ht', rfl⟩ := Checked.map_eq_ok_iff.mp h
    rw [override, override, Task.override_twice ht']
  · rw [override, Task.override_nil]
    rfl
  · intro a
    rw [override, override, Task.override_congr r.task fun e he => get?_known he a]
  · intro a r' h
    obtain ⟨t', -, rfl⟩ := Checked.map_eq_ok_iff.mp h
    refine ⟨rfl, fun c name other text hget hne => ?_⟩
    exact ⟨c.get_register_of_ne _ _ _ hne hget, c.get_register_self _ _ _⟩
  · intro t ht
    rw [override, Task.override_settings ht]
    rfl

/-- The recipe for the renaming with the settings that it comes with. -/
def plainRename : Recipe := ⟨"plain".toList, .rename {}⟩

/-- Settings that are written in another way than they are read: a word for yes, and a name that is
not known. -/
def strictly : Settings :=
  [("strict_indirection".toList, .text "Yes".toList), ("colour".toList, .int 7)]

/-- Settings of which two are wrong. -/
def wrongly : Settings :=
  [("indirection_functions".toList, .list [.text "getApi".toList, .int 1]),
    ("method".toList, .null), ("strict_indirection".toList, .bool false)]

/-- What is wrong with settings is the same whether others were laid over the recipe before or are
laid over it at once. -/
theorem override_compose_wrongly :
  ∃ r', plainRename.override strictly = .ok r' ∧ r'.task = .rename { strict := true }
    ∧ r'.override wrongly = plainRename.override (strictly.update wrongly)
    ∧ plainRename.override (strictly.update wrongly)
      = .error [⟨[.name "method".toList], .notText⟩,
        ⟨[.name "indirection_functions".toList, .number 1], .notText⟩]
  := by
  refine ⟨⟨"plain".toList, .rename { strict := true }⟩, rfl, rfl, ?_, rfl⟩
  exact (override_compose plainRename).1 strictly wrongly _ rfl

end Recipe

end Codemod
