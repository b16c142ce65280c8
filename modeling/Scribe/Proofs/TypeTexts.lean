import Scribe.Proofs.Mirrors
import Scribe.Proofs.Names

/-!
# The text of a type tells which type it is

The text of a type is the spelling of the annotation that it is written back to. A spelling can be
read in one way only: it begins with a word, the word tells the form, and what follows a word never
begins with a letter. Model names begin with an uppercase letter, so none of them is the word of
another form. Where no two models share a name, two types with one text are therefore equal, and a
message about two different types shows two different texts (`type_texts_differ`).
-/

namespace Scribe.Syntax.TypeExpr

open Scribe.Lowering

/-- An annotation as it is written. -/
def spelling : TypeExpr → String
  | .bool => "bool"
  | .int => "int"
  | .rune => "rune"
  | .string => "string"
  | .void => "void"
  | .list item => "list<" ++ item.spelling ++ ">"
  | .map key value => "map<" ++ key.spelling ++ ", " ++ value.spelling ++ ">"
  | .set item => "set<" ++ item.spelling ++ ">"
  | .model name => name

/-- The models of an annotation have names that models may have. -/
def Named : TypeExpr → Prop
  | .bool | .int | .rune | .string | .void => True
  | .list item | .set item => item.Named
  | .map key value => key.Named ∧ value.Named
  | .model name => checkTypeName name = .ok ()

/-- The word that a spelling begins with. -/
def word : TypeExpr → String
  | .list _ => "list"
  | .map _ _ => "map"
  | .set _ => "set"
  | t => t.spelling

/-- What follows the word. -/
def tail : TypeExpr → List Char
  | .list item | .set item => '<' :: (item.spelling.toList ++ ['>'])
  | .map key value =>
    '<' :: (key.spelling.toList ++ ',' :: ' ' :: (value.spelling.toList ++ ['>']))
  | _ => []

theorem toList_spelling (t : TypeExpr) : t.spelling.toList = t.word.toList ++ t.tail := by
  cases t <;> simp [spelling, word, tail]

end Scribe.Syntax.TypeExpr

namespace Scribe.Lowering

open Scribe.Core
open Scribe.Syntax (TypeExpr)

/-! ## Words -/

variable {name : String} {u v : List Char} {a b : TypeExpr}

/-- The name of a model is a word that begins with an uppercase letter. -/
theorem checkTypeName_eq_ok (h : checkTypeName name = .ok ()) :
    (∃ c, name.toList.head? = some c ∧ c.isUpper = true) ∧ ∀ c ∈ name.toList, c.isAlpha = true := by
  simp only [checkTypeName, Result.bind_eq_ok] at h
  obtain ⟨first, hfirst, htest⟩ := h
  obtain ⟨hhead, hletters⟩ := checkLetters_eq_ok hfirst
  split at htest
  · next hupper => exact ⟨⟨first, hhead, hupper⟩, hletters⟩
  · cases htest

/-- Two texts that begin with a word each, and go on with something else than a letter, begin with
the same word if they are equal. -/
theorem words_eq {x y : List Char} (hx : ∀ c ∈ x, c.isAlpha = true)
    (hy : ∀ c ∈ y, c.isAlpha = true) (hu : ∀ c ∈ u.head?, c.isAlpha = false)
    (hv : ∀ c ∈ v.head?, c.isAlpha = false) (h : x ++ u = y ++ v) : x = y ∧ u = v := by
  have hword {x u : List Char} (hx : ∀ c ∈ x, c.isAlpha = true)
      (hu : ∀ c ∈ u.head?, c.isAlpha = false) : (x ++ u).takeWhile Char.isAlpha = x := by
    rw [List.takeWhile_append_of_pos hx]
    cases u with
    | nil => exact List.append_nil x
    | cons c u => rw [List.takeWhile_cons_of_neg (by simp [hu c rfl]), List.append_nil]
  have hxy : x = y := by rw [← hword hx hu, h, hword hy hv]
  subst hxy
  exact ⟨rfl, List.append_cancel_left h⟩

theorem isAlpha_word (ha : a.Named) : ∀ c ∈ a.word.toList, c.isAlpha = true := by
  cases a with
  | model name => exact (checkTypeName_eq_ok ha).2
  | _ => simp [TypeExpr.word, TypeExpr.spelling]

/-- Two annotations are of one form: both are lists, sets or maps, or they are the same. -/
inductive SameForm : TypeExpr → TypeExpr → Prop where
  | refl (a : TypeExpr) : SameForm a a
  | list (i j : TypeExpr) : SameForm (.list i) (.list j)
  | set (i j : TypeExpr) : SameForm (.set i) (.set j)
  | map (k v k' v' : TypeExpr) : SameForm (.map k v) (.map k' v')

/-- The name of a model is no word of another form. -/
theorem word_ne_of_named (h : checkTypeName name = .ok ()) (ha : ∀ name, a ≠ .model name) :
    name ≠ a.word := by
  rintro rfl
  obtain ⟨⟨c, hc, hupper⟩, _⟩ := checkTypeName_eq_ok h
  cases a with
  | model name => exact ha name rfl
  | _ =>
    simp only [TypeExpr.word, TypeExpr.spelling] at hc
    cases hc
    exact absurd hupper (by decide)

theorem SameForm.of_word (ha : a.Named) (hb : b.Named) (h : a.word = b.word) : SameForm a b := by
  cases a with
  | model name =>
    cases b with
    | model name' =>
      cases (h : name = name')
      exact .refl _
    | _ => exact absurd h (word_ne_of_named ha (by simp))
  | _ =>
    cases b with
    | model name => exact absurd h.symm (word_ne_of_named hb (by simp))
    | _ => first | constructor | simp [TypeExpr.word, TypeExpr.spelling] at h

/-! ## Reading a spelling -/

/-- A text may follow a spelling: it begins with no letter, nor with the bracket of a part. -/
def Follows (u : List Char) : Prop :=
  ∀ c ∈ u.head?, c.isAlpha = false

theorem Follows.tail (hu : Follows u) : Follows (a.tail ++ u) := by
  cases a with
  | list | set | map =>
    rintro c ⟨⟩
    rfl
  | _ => exact hu

theorem Follows.close (u : List Char) : Follows ('>' :: u) := by
  rintro c ⟨⟩
  rfl

theorem Follows.comma (u : List Char) : Follows (',' :: u) := by
  rintro c ⟨⟩
  rfl

/-- What a spelling begins with tells the form of the annotation. -/
theorem sameForm_of_spelling (ha : a.Named) (hb : b.Named) (hu : Follows u) (hv : Follows v)
    (h : a.spelling.toList ++ u = b.spelling.toList ++ v) :
    SameForm a b ∧ a.tail ++ u = b.tail ++ v := by
  rw [a.toList_spelling, b.toList_spelling, List.append_assoc, List.append_assoc] at h
  obtain ⟨hword, htail⟩ := words_eq (isAlpha_word ha) (isAlpha_word hb) hu.tail hv.tail h
  exact ⟨.of_word ha hb (String.toList_inj.mp hword), htail⟩

/-- A spelling is read in one way only, whatever follows it. -/
theorem spelling_append_inj (ha : a.Named) (hb : b.Named) (hu : Follows u) (hv : Follows v)
    (h : a.spelling.toList ++ u = b.spelling.toList ++ v) : a = b ∧ u = v := by
  induction a generalizing b u v with
  | list item ih | set item ih =>
    obtain ⟨hform, htail⟩ := sameForm_of_spelling ha hb hu hv h
    cases hform with
    | refl => exact ⟨rfl, List.append_cancel_left htail⟩
    | _ =>
      simp only [TypeExpr.tail, List.cons_append, List.append_assoc, List.cons.injEq, true_and,
        List.nil_append] at htail
      obtain ⟨rfl, hrest⟩ := ih ha (by exact hb) (.close u) (.close v) htail
      exact ⟨rfl, List.tail_eq_of_cons_eq hrest⟩
  | map key value ihk ihv =>
    obtain ⟨hform, htail⟩ := sameForm_of_spelling ha hb hu hv h
    cases hform with
    | refl => exact ⟨rfl, List.append_cancel_left htail⟩
    | map =>
      simp only [TypeExpr.tail, List.cons_append, List.append_assoc, List.cons.injEq, true_and,
        List.nil_append] at htail
      obtain ⟨rfl, hvalue⟩ := ihk ha.1 hb.1 (.comma _) (.comma _) htail
      simp only [List.cons.injEq, true_and] at hvalue
      obtain ⟨rfl, hrest⟩ := ihv ha.2 hb.2 (.close u) (.close v) hvalue
      exact ⟨rfl, List.tail_eq_of_cons_eq hrest⟩
  | _ =>
    obtain ⟨hform, htail⟩ := sameForm_of_spelling ha hb hu hv h
    cases hform
    exact ⟨rfl, htail⟩

theorem spelling_injective (ha : a.Named) (hb : b.Named) (h : a.spelling = b.spelling) : a = b := by
  have hnil : Follows [] := by rintro _ ⟨⟩
  exact (spelling_append_inj ha hb hnil hnil (by rw [h])).1

end Scribe.Lowering

namespace Scribe.Core

open Scribe.Lowering
open Scribe.Syntax (TypeExpr)

/-! ## Texts of types -/

/-- The models of a program have names that models may have, each its own. -/
structure Program.ModelsNamed (p : Program) : Prop where
  valid : ∀ name ∈ p.modelNames, checkTypeName name = .ok ()
  nodup : p.modelNames.Nodup

namespace Program

variable {p : Program} {s t : Ty}

/-- The text of a type is the spelling of the annotation that it is written back to. -/
theorem typeName?_eq (p : Program) (t : Ty) :
    p.typeName? t = (p.eraseType t).map TypeExpr.spelling := by
  induction t with
  | primitive t => cases t <;> rfl
  | list item ih | set item ih =>
    rw [typeName?, eraseType, ih]
    cases p.eraseType item <;> rfl
  | map key value ihk ihv =>
    rw [typeName?, eraseType, ihk, ihv]
    cases p.eraseType key <;> cases p.eraseType value <;> rfl
  | model id =>
    rw [typeName?, eraseType]
    cases p.getModel? id <;> rfl

/-- The type of the program that an annotation spells, if there is one. -/
def ofSpelled (p : Program) : TypeExpr → Ty
  | .bool => .bool
  | .int => .int
  | .rune => .rune
  | .string => .string
  | .void => .void
  | .list item => .list (p.ofSpelled item)
  | .map key value => .map (p.ofSpelled key) (p.ofSpelled value)
  | .set item => .set (p.ofSpelled item)
  | .model name => .model ⟨p.modelNames.idxOf name⟩

/-- A type is told by the annotation that it is written back to, whose models have valid names. -/
theorem ofSpelled_of_eraseType (hp : p.ModelsNamed) {a : TypeExpr} (h : p.eraseType t = some a) :
    a.Named ∧ p.ofSpelled a = t := by
  induction t generalizing a with
  | primitive t => cases t <;> cases h <;> exact ⟨trivial, rfl⟩
  | list item ih | set item ih =>
    obtain ⟨i, hi, ⟨⟩⟩ := Option.bind_eq_some_iff.mp h
    obtain ⟨hnamed, rfl⟩ := ih hi
    exact ⟨hnamed, rfl⟩
  | map key value ihk ihv =>
    obtain ⟨k, hk, h'⟩ := Option.bind_eq_some_iff.mp h
    obtain ⟨v, hv, ⟨⟩⟩ := Option.bind_eq_some_iff.mp h'
    obtain ⟨hkey, rfl⟩ := ihk hk
    obtain ⟨hvalue, rfl⟩ := ihv hv
    exact ⟨⟨hkey, hvalue⟩, rfl⟩
  | model id =>
    obtain ⟨m, hm, ⟨⟩⟩ := Option.bind_eq_some_iff.mp h
    have hname : p.modelNames[id.index]? = some m.name := by
      rw [modelNames, List.getElem?_map, Array.getElem?_toList]
      exact congrArg (Option.map (·.name)) hm
    obtain ⟨hlt, hat⟩ := List.getElem?_eq_some_iff.mp hname
    refine ⟨hp.valid _ (List.mem_of_getElem? hname), ?_⟩
    rw [ofSpelled, ← hat, hp.nodup.idxOf_getElem]

/-- The text of a type tells which type it is. -/
theorem typeName?_injective (hp : p.ModelsNamed) {text : String} (hs : p.typeName? s = some text)
    (ht : p.typeName? t = some text) : s = t := by
  rw [typeName?_eq, Option.map_eq_some_iff] at hs ht
  obtain ⟨a, ha, rfl⟩ := hs
  obtain ⟨b, hb, hspelling⟩ := ht
  obtain ⟨hnamed, rfl⟩ := ofSpelled_of_eraseType hp ha
  obtain ⟨hnamed', rfl⟩ := ofSpelled_of_eraseType hp hb
  rw [spelling_injective hnamed' hnamed hspelling]

theorem typeName?_of_known (h : t.Known p) : p.typeName? t = some (p.typeName t) := by
  obtain ⟨text, htext⟩ := describe_eq_ok h
  rw [typeName, Checked.ofOption_eq_ok.mp htext]
  rfl

end Program

end Scribe.Core

namespace Scribe.Lowering

open Scribe.Core

variable {p : Program}

/-! ## Only returns are refused for what they give -/

/-- A check that does not fail for what a return gives. -/
def Checked.Quiet {α : Type} (x : Checked α) : Prop :=
  ∀ expected found, x ≠ .error (.returnTypeMismatch expected found)

namespace Checked.Quiet

variable {α β : Type}

theorem ok (a : α) : Quiet (.ok a : Checked α) := by
  rintro _ _ ⟨⟩

theorem bind {x : Checked α} {f : α → Checked β} (hx : Quiet x) (hf : ∀ a, Quiet (f a)) :
    Quiet (x >>= f) := by
  cases x with
  | ok a => exact hf a
  | error e =>
    rintro _ _ ⟨⟩
    exact hx _ _ rfl

theorem ofOption (o : Option α) : Quiet (.ofOption o) := by
  cases o <;> rintro _ _ ⟨⟩

theorem ensureType (s t : Ty) : Quiet (ensureType p s t) := by
  unfold Lowering.ensureType
  split
  · exact ok ()
  · exact (ofOption _).bind fun _ => (ofOption _).bind fun _ => by rintro _ _ ⟨⟩

theorem agree (part : LiteralPart) (t : Ty) {xs : List (Checked Ty)} (hxs : ∀ x ∈ xs, Quiet x) :
    Quiet (agree p part t xs) := by
  induction xs with
  | nil => exact ok ()
  | cons x xs ih =>
    obtain ⟨hx, hxs⟩ := List.forall_mem_cons.mp hxs
    refine hx.bind fun found => ?_
    split
    · exact ih hxs
    · exact (ofOption _).bind fun _ => (ofOption _).bind fun _ => by rintro _ _ ⟨⟩

theorem sharedType (part : LiteralPart) {xs : List (Checked Ty)} (hxs : ∀ x ∈ xs, Quiet x) :
    Quiet (sharedType p part xs) := by
  cases xs with
  | nil => rintro _ _ ⟨⟩
  | cons x xs =>
    obtain ⟨hx, hxs⟩ := List.forall_mem_cons.mp hxs
    exact hx.bind fun t => (agree part t hxs).bind fun _ => ok t

theorem typeOf (e : Expr) : Quiet (typeOf p e) := by
  induction e using Expr.nodeInduction with
  | h e ih =>
    cases e with
    | list items _ | set items _ =>
      unfold Lowering.typeOf
      rw [typesOf_eq_map]
      exact (sharedType _ (List.forall_mem_map.mpr ih)).bind fun _ => ok _
    | map entries key value =>
      have hmem {x : Expr × Expr} (hx : x ∈ entries) := Expr.mem_children_map hx key value
      unfold Lowering.typeOf
      rw [keyTypes_eq_map, valueTypes_eq_map]
      refine (sharedType _ (List.forall_mem_map.mpr fun x hx => ih _ (hmem hx).1)).bind fun _ =>
        (sharedType _ (List.forall_mem_map.mpr fun x hx => ih _ (hmem hx).2)).bind fun _ => ok _
    | call => exact (ofOption _).bind fun _ => ok _
    | lookup a k =>
      obtain ⟨ha, hk⟩ := List.forall_mem_cons.mp ih
      refine ha.bind fun t => (hk k List.mem_cons_self).bind fun t' => bind ?_ fun _ => ok _
      unfold lookupType
      split
      iterate 3 exact (ensureType _ _).bind fun _ => ok _
      exact (ofOption _).bind fun _ => by rintro _ _ ⟨⟩
    | unary op operand =>
      refine (ih operand List.mem_cons_self).bind fun t => bind ?_ fun _ => ok _
      unfold unaryOutput
      split
      · exact ok _
      · exact (ofOption _).bind fun _ => by rintro _ _ ⟨⟩
    | binary op l r =>
      obtain ⟨hl, hr⟩ := List.forall_mem_cons.mp ih
      unfold Lowering.typeOf
      split
      · exact ok _
      · refine hl.bind fun t => (hr r List.mem_cons_self).bind fun t' => bind ?_ fun _ => ok _
        unfold binaryOutput
        split
        · split
          · rintro _ _ ⟨⟩
          · split <;> rintro _ _ ⟨⟩
        · exact (ofOption _).bind fun _ => (ofOption _).bind fun _ => by rintro _ _ ⟨⟩
    | property | var => exact ofOption _
    | _ => exact ok _

end Checked.Quiet

/-! ## Messages about two types -/

/-- What fails after a type was to be described fails because of the rest, or the type has no
text. -/
theorem describe_bind_error {α : Type} {t : Ty} {f : String → Checked α} {e : LowerError}
    (h : (describe p t >>= f) = .error e) :
    e = .structural .dangling ∨ ∃ text, p.typeName? t = some text ∧ f text = .error e := by
  unfold describe at h
  cases htext : p.typeName? t with
  | none =>
    rw [htext] at h
    cases h
    exact .inl rfl
  | some text =>
    rw [htext] at h
    exact .inr ⟨text, rfl, h⟩

theorem ensureType_texts (hp : p.ModelsNamed) {expected found : Ty} {x y : String}
    (h : ensureType p expected found = .error (.typeMismatch x y)) : x ≠ y := by
  unfold ensureType mismatch at h
  split at h
  · cases h
  · next hne =>
    obtain ⟨⟨⟩⟩ | ⟨text, htext, h⟩ := describe_bind_error h
    obtain ⟨⟨⟩⟩ | ⟨text', htext', ⟨⟩⟩ := describe_bind_error h
    rintro rfl
    exact hne (Program.typeName?_injective hp htext htext')

theorem checkReturn_texts (hp : p.ModelsNamed) {expected : Ty} {value : Option Expr} {x y : String}
    (h : checkReturn p expected value = .error (.returnTypeMismatch x y)) : x ≠ y := by
  rw [checkReturn_eq] at h
  cases hvalue : returnedType p value with
  | error e =>
    rw [hvalue] at h
    cases h
    cases value with
    | none => cases hvalue
    | some v => exact absurd hvalue (Checked.Quiet.typeOf v x y)
  | ok found =>
    rw [hvalue] at h
    replace h : (if found = expected then .ok () else do
        throw (.returnTypeMismatch (← describe p expected) (← describe p found)) : Checked Unit) =
          .error (.returnTypeMismatch x y) := h
    split at h
    · cases h
    · next hne =>
      obtain ⟨⟨⟩⟩ | ⟨text, htext, h⟩ := describe_bind_error h
      obtain ⟨⟨⟩⟩ | ⟨text', htext', ⟨⟩⟩ := describe_bind_error h
      rintro rfl
      exact hne (Program.typeName?_injective hp htext' htext)

/-! ## Lowered programs -/

theorem modelsNamed_of_names {ms : List Syntax.Model}
    (hvalid : ∀ m ∈ ms, checkTypeName m.name = .ok ()) (hnodup : (ms.map (·.name)).Nodup)
    (hnames : p.modelNames = ms.map (·.name)) : p.ModelsNamed := by
  refine ⟨?_, hnames ▸ hnodup⟩
  rw [hnames]
  exact List.forall_mem_map.mpr hvalid

/-- A program is on the way from a module, or at its end: it is what the module becomes, or it has
the models that the module declares first. -/
def Reaches (m : Syntax.Module) (p : Program) : Prop :=
  (∃ limit, lower m limit = .ok p) ∨
    ∃ ids c, m.models.mapM declareModel ⟨{ name := m.name }, [.program]⟩ = .ok ids c ∧
      p.modelNames = c.program.modelNames ∧ p.modelMap = c.program.modelMap

theorem Reaches.modelsNamed {m : Syntax.Module} (h : Reaches m p) : p.ModelsNamed := by
  obtain ⟨limit, hlower⟩ | ⟨ids, c, hdeclared, hnames, _⟩ := h
  · obtain ⟨_, ts, htraced⟩ := lower_traced hlower
    exact modelsNamed_of_names htraced.declares.modelNames htraced.declares.models
      htraced.modelNames
  · obtain ⟨⟨hvalid, hnodup, _⟩, _, rfl⟩ := mapM_declareModel_eq_ok.mp hdeclared
    refine modelsNamed_of_names hvalid hnodup ?_
    rw [hnames]
    simp [Program.modelNames, Program.withModels]

theorem Reaches.getModel?_of_model? {m : Syntax.Module} (h : Reaches m p) {name : String}
    {id : ModelId} (hid : p.model? name = some id) :
    ∃ model, p.getModel? id = some model ∧ model.name = name := by
  obtain ⟨limit, hlower⟩ | ⟨ids, c, hdeclared, hnames, hmap⟩ := h
  · exact (lower_pending hlower).signatures.indexed.model?_eq_some.mp hid
  · obtain ⟨⟨_, hnodup, _⟩, _, rfl⟩ := mapM_declareModel_eq_ok.mp hdeclared
    rw [Program.model?, hmap, Program.withModels, List.nil_append, lookup_eq_some_iff_mem
      (by rw [← NameMap.names, NameMap.names_ofNames]; exact hnodup)] at hid
    obtain ⟨i, hi, rfl⟩ := NameMap.mem_ofNames.mp hid
    have hget : p.modelNames[i]? = some name := by
      rw [hnames, Program.modelNames, Program.withModels]
      simpa using hi
    simpa [Program.modelNames, Program.getModel?] using hget

/-- The text of a type tells which type it is, and is what the annotation of the type spells. So a
message that a type is not the expected one shows two different texts, in the program that a module
becomes and while it is made. -/
theorem type_texts_differ {m : Syntax.Module} (h : Reaches m p) :
    (∀ s t : Ty, s.Known p → t.Known p → p.typeName s = p.typeName t → s = t) ∧
    (∀ a t, lowerType p a = .ok t → p.typeName t = a.spelling) ∧
    (∀ expected found x y,
      ensureType p expected found = .error (.typeMismatch x y) → x ≠ y) ∧
    ∀ expected value x y,
      checkReturn p expected value = .error (.returnTypeMismatch x y) → x ≠ y := by
  have hp := h.modelsNamed
  refine ⟨fun s t hs ht heq => ?_, fun a t ha => ?_, fun _ _ _ _ => ensureType_texts hp,
    fun _ _ _ _ => checkReturn_texts hp⟩
  · have htext := Program.typeName?_of_known ht
    rw [← heq] at htext
    exact Program.typeName?_injective hp (Program.typeName?_of_known hs) htext
  · rw [Program.typeName, Program.typeName?_eq, eraseType_of_lowerType h.getModel?_of_model? ha]
    rfl

theorem sampleProgram_texts :
    Reaches sampleModule sampleProgram ∧
      ∀ t : Ty, t.Known sampleProgram →
        (sampleProgram.typeName t = "list<map<int, Item>>" ↔
          t = .list (.map .int (.model ⟨0⟩))) := by
  have hreaches : Reaches sampleModule sampleProgram := .inl ⟨none, lower_sampleModule⟩
  obtain ⟨hinjective, hspelling, _⟩ := type_texts_differ hreaches
  have hlower : lowerType sampleProgram (.list (.map .int (.model "Item"))) =
      .ok (.list (.map .int (.model ⟨0⟩))) := by cbv
  have htext := hspelling _ _ hlower
  refine ⟨hreaches, fun t ht => ⟨fun heq => ?_, ?_⟩⟩
  · have hi := (lower_pending lower_sampleModule).signatures.indexed
    exact hinjective t _ ht (lowerType_known hi hlower) (heq.trans htext.symm)
  · rintro rfl
    exact htext

end Scribe.Lowering
