import Scribe.Proofs.ElabStmt

/-!
# Lowered code is sound

What an expression becomes says the truth and is in scope at the place it was lowered for, whatever
is declared and whatever the scope holds, as long as the scope fits the place (`Elab.sound`). What a
statement becomes is sound at a site where the locals that it binds may be used as well, and a
`break` or `continue` in it has a loop to leave (`ElabStmt.sound`). The proofs go over the rules of
lowering.
-/

namespace Scribe.Lowering

open Scribe.Core

/-! ## Expressions -/

section Expr

variable {site : Site} {c : Context}

/-- What is no constant form stands in a body. -/
theorem Site.isSome_of_not_constant {e : Syntax.Expr}
    (h : site.callable = none → isConstantForm e = true) (he : isConstantForm e = false) :
    site.callable.isSome := by
  cases hcallable : site.callable with
  | none => exact absurd (h hcallable) (by rw [he]; exact Bool.false_ne_true)
  | some _ => rfl

theorem Site.any_of_not_constant {e : Syntax.Expr} {form : Bool}
    (h : site.callable = none → isConstantForm e = true)
    (he : isConstantForm e = false := by rfl) : site.callable = none → form = true :=
  fun hnone => absurd (he.symm.trans (h hnone)) Bool.false_ne_true

theorem Site.not_constant_of_isSome {form : Bool} (h : site.callable.isSome) :
    site.callable = none → form = true := by
  intro hnone
  rw [hnone] at h
  cases h

theorem null_sound {p : Program} {e : Expr} {t : Ty} (ht : typeOf p e = .ok t) (hvoid : t ≠ .void)
    (he : e.All (Expr.Sound p site)) : (Expr.null t).All (Expr.Sound p site) :=
  Expr.All.leaf hvoid (he.known ht)

mutual

/-- What an expression becomes is sound where it stands. Outside of bodies only constant forms are
accepted. -/
theorem Elab.sound {e e'} (h : Elab c.program c.scope e e') (hc : c.Fits site)
    (hform : site.callable = none → isConstantForm e = true) :
    e'.All (Expr.Sound c.program site) := by
  cases h with
  | bool _ | int _ | rune _ | string _ => exact Expr.All.leaf trivial trivial
  | list hes hitem | set hes hitem =>
    obtain ⟨hne, htypes⟩ := sharedType_items.mp hitem
    have hall := hes.sound hc hform
    obtain ⟨first, hfirst⟩ := List.exists_mem_of_ne_nil _ hne
    exact Expr.All.of_agrees ⟨hne, htypes⟩ ((hall first hfirst).known (htypes first hfirst)) hall
  | map hentries hkey hvalue =>
    obtain ⟨hne, hkeys⟩ := sharedType_keys.mp hkey
    obtain ⟨_, hvalues⟩ := sharedType_values.mp hvalue
    have hall := hentries.sound hc hform
    -- the first entry vouches for the types of keys and values
    obtain ⟨first, hfirst⟩ := List.exists_mem_of_ne_nil _ hne
    have hknown := hall first hfirst
    refine Expr.All.of_agrees ⟨hne, fun e he => ⟨hkeys e he, hvalues e he⟩⟩
      ⟨hknown.1.known (hkeys first hfirst), hknown.2.known (hvalues first hfirst)⟩ ?_
    intro child hchild
    obtain ⟨entry, hentry, hmem⟩ := List.mem_flatMap.mp hchild
    exact forall_mem_pair (hall entry hentry).1 (hall entry hentry).2 child hmem
  | emptyList hitem | emptySet hitem =>
    exact Expr.All.leaf trivial
      (lowerType_known hc.signatures.indexed (lowerValueType_eq_ok.mp hitem).1)
  | emptyMap hkey hvalue =>
    have hp := hc.signatures.indexed
    exact Expr.All.leaf trivial ⟨lowerType_known hp (lowerValueType_eq_ok.mp hkey).1,
      lowerType_known hp (lowerValueType_eq_ok.mp hvalue).1⟩
  | callFunction hresolve hf hes htypes =>
    have hbody := Site.isSome_of_not_constant hform rfl
    obtain ⟨hreceiver, hself⟩ := hc.resolveFunction hresolve hf
    refine Expr.All.of_agrees (CallAgrees.of_types hf hreceiver (map_typeOf_parameters.mpr htypes))
      ⟨hbody, ⟨_, hf⟩, hc.signatures.returnType hf⟩ (List.forall_mem_append.mpr ⟨?_, ?_⟩)
    · exact fun child hchild => hself child (Option.mem_toList.mp hchild)
    · exact hes.sound hc (Site.any_of_not_constant hform)
  | callMethod hr ht hresolve hf hes htypes =>
    have hbody := Site.isSome_of_not_constant hform rfl
    refine Expr.All.of_agrees (CallAgrees.of_types hf (hc.resolveMethod ht hresolve hf)
      (map_typeOf_parameters.mpr htypes)) ⟨hbody, ⟨_, hf⟩, hc.signatures.returnType hf⟩ ?_
    exact List.forall_mem_cons.mpr ⟨hr.sound hc (Site.any_of_not_constant hform),
      hes.sound hc (Site.any_of_not_constant hform)⟩
  | callContains hr ht he hte | contains hr ht he hte =>
    exact Expr.All.of_agrees ⟨_, ht, hte⟩ trivial
      (forall_mem_pair (hr.sound hc (Site.any_of_not_constant hform))
        (he.sound hc (Site.any_of_not_constant hform)))
  | @callPop _ _ item hr ht | @pop _ _ item hr ht =>
    have hall := hr.sound hc (Site.any_of_not_constant hform)
    have hknown : (Ty.list item).Known c.program := hall.known ht
    exact Expr.All.of_agrees ht hknown (List.forall_mem_singleton.mpr hall)
  | lookup ha hk hta htk hlookup =>
    have hall := ha.sound hc (Site.any_of_not_constant hform)
    refine Expr.All.of_agrees ⟨_, _, hta, htk, hlookup⟩ ?_
      (forall_mem_pair hall (hk.sound hc (Site.any_of_not_constant hform)))
    have hknown := hall.known hta
    obtain ⟨rfl, _, _⟩ | ⟨rfl, _⟩ | ⟨_, _, _, rfl⟩ := lookupType_eq_ok.mp hlookup
    · exact hknown
    · exact hknown.2
    · trivial
  | property hr ht hfield =>
    obtain ⟨rfl, f, hf, rfl⟩ := resolveField_eq_ok hfield
    have htype : c.program.definitionType? (.field _ _) = some f.type :=
      Option.map_eq_some_iff.mpr ⟨f, hf, rfl⟩
    exact Expr.All.of_agrees ⟨ht, htype⟩ ⟨⟨f, hf⟩, hc.signatures.definitionType?_known htype⟩
      (List.forall_mem_singleton.mpr (hr.sound hc (Site.any_of_not_constant hform)))
  | new hid =>
    obtain ⟨m, hm, _⟩ := hc.signatures.indexed.model?_eq_some.mp hid
    exact Expr.All.leaf trivial ⟨Site.isSome_of_not_constant hform rfl, m, hm⟩
  | length he ht hkind =>
    exact Expr.All.of_agrees ⟨_, ht, hkind⟩ trivial
      (List.forall_mem_singleton.mpr (he.sound hc (Site.any_of_not_constant hform)))
  | unary he ht houtput =>
    exact Expr.All.of_agrees ⟨_, ht, houtput⟩ trivial
      (List.forall_mem_singleton.mpr (he.sound hc hform))
  | binary hl hr htl htr houtput =>
    have hparts (h : site.callable = none) := Bool.and_eq_true_iff.mp (hform h)
    refine Expr.All.of_agrees ⟨_, _, htl, htr, ?_⟩ trivial
      (forall_mem_pair (hl.sound hc fun h => (hparts h).1) (hr.sound hc fun h => (hparts h).2))
    -- no operand is `null`, so the operator decides
    rw [hl.not_null, hr.not_null, Bool.or_false, Bool.and_false, if_neg Bool.false_ne_true]
    exact houtput
  | nullLeft hop he ht hvoid =>
    have hall := he.sound hc fun h => (Bool.and_eq_true_iff.mp (hform h)).2
    refine Expr.All.of_agrees ⟨_, _, rfl, ht, ?_⟩ trivial
      (forall_mem_pair (null_sound ht hvoid hall) hall)
    rw [if_pos (by rw [hop]; rfl)]
    exact ⟨rfl, rfl⟩
  | nullRight hop he ht hvoid =>
    have hall := he.sound hc fun h => (Bool.and_eq_true_iff.mp (hform h)).1
    refine Expr.All.of_agrees ⟨_, _, ht, rfl, ?_⟩ trivial
      (forall_mem_pair hall (null_sound ht hvoid hall))
    rw [if_pos (by rw [hop]; exact Bool.or_true _)]
    exact ⟨rfl, rfl⟩
  | var hd ht =>
    exact Expr.All.leaf ht ⟨hc.resolve hd, hc.signatures.definitionType?_known ht⟩
  | self hid => exact Expr.All.leaf trivial (hc.enclosingModel? hid)

theorem Elabs.sound {es es'} (h : Elabs c.program c.scope es es') (hc : c.Fits site)
    (hform : site.callable = none → areConstantForms es = true) :
    ∀ e ∈ es', e.All (Expr.Sound c.program site) := by
  cases h with
  | nil => exact List.forall_mem_nil _
  | cons he hes =>
    have hparts (h : site.callable = none) := Bool.and_eq_true_iff.mp (hform h)
    exact List.forall_mem_cons.mpr ⟨he.sound hc fun h => (hparts h).1,
      hes.sound hc fun h => (hparts h).2⟩

theorem ElabEntries.sound {entries entries'} (h : ElabEntries c.program c.scope entries entries')
    (hc : c.Fits site) (hform : site.callable = none → areConstantEntries entries = true) :
    ∀ e ∈ entries', e.1.All (Expr.Sound c.program site) ∧ e.2.All (Expr.Sound c.program site) := by
  cases h with
  | nil => exact List.forall_mem_nil _
  | cons hk hv hentries =>
    have hparts (h : site.callable = none) := by
      have hentry := hform h
      simp only [areConstantEntries, Bool.and_eq_true] at hentry
      exact hentry
    exact List.forall_mem_cons.mpr ⟨⟨hk.sound hc fun h => (hparts h).1.1,
      hv.sound hc fun h => (hparts h).1.2⟩, hentries.sound hc fun h => (hparts h).2⟩

end

end Expr

/-! ## Statements -/

section Simple

variable {site : Site} {c : Context} (hc : c.Fits site) (hbody : site.callable.isSome)

include hc hbody

/-- Where a type is expected, `null` is accepted too. -/
theorem ElabAt.sound {t : Ty} {e : Syntax.Expr} {e' : Expr}
    (h : ElabAt c.program c.scope t e e') (hknown : t.Known c.program) :
    e'.All (Expr.Sound c.program site) := by
  cases h with
  | null hvoid => exact Expr.All.leaf hvoid hknown
  | expr he => exact he.sound hc (Site.not_constant_of_isSome hbody)

theorem ElabSimple.sound {s : Syntax.Stmt} {s' : Stmt} (h : ElabSimple c.program c.scope s s') :
    Lowers site c c s'.binders [s'] := by
  have hexpr {e : Syntax.Expr} {e' : Expr} (he : Elab c.program c.scope e e') :
      e'.All (Expr.Sound c.program site) := he.sound hc (Site.not_constant_of_isSome hbody)
  cases h with
  | assign hplace hisPlace ht he hte =>
    have hknown := (hexpr hplace).known ht
    exact .simple hc ⟨⟨hisPlace, _, ht, hte⟩, trivial,
      forall_mem_pair (hexpr hplace) (he.sound hc hbody hknown)⟩
  | retNone hcallable hvoid =>
    exact .simple hc ⟨⟨_, hvoid, rfl⟩, hc.enclosingCallable? hcallable, List.forall_mem_nil _⟩
  | retSome hcallable ht he hte =>
    have hknown := callableReturnType?_known hc.signatures ht
    exact .simple hc ⟨⟨_, ht, hte⟩, hc.enclosingCallable? hcallable,
      List.forall_mem_singleton.mpr (he.sound hc hbody hknown)⟩
  | brk hloop | cont hloop =>
    exact .simple hc ⟨trivial, trivial, List.forall_mem_nil _⟩ fun _ => hloop
  | add ha hta he hte | callAdd ha hta he hte | push ha hta he hte | callPush ha hta he hte =>
    exact .simple hc ⟨⟨_, hta, hte⟩, trivial, forall_mem_pair (hexpr ha) (hexpr he)⟩
  | pop ha hta | callPop ha hta =>
    exact .simple hc ⟨⟨_, hta⟩, trivial, List.forall_mem_singleton.mpr (hexpr ha)⟩
  | callFunction hresolve hf hes htypes =>
    obtain ⟨hreceiver, hself⟩ := hc.resolveFunction hresolve hf
    refine .simple hc ⟨CallAgrees.of_types hf hreceiver (map_typeOf_parameters.mpr htypes),
      ⟨⟨_, hf⟩, hc.signatures.returnType hf⟩, List.forall_mem_append.mpr ⟨?_, ?_⟩⟩
    · exact fun e he => hself e (Option.mem_toList.mp he)
    · exact hes.sound hc (Site.not_constant_of_isSome hbody)
  | callMethod hr ht hresolve hf hes htypes =>
    exact .simple hc ⟨CallAgrees.of_types hf (hc.resolveMethod ht hresolve hf)
      (map_typeOf_parameters.mpr htypes), ⟨⟨_, hf⟩, hc.signatures.returnType hf⟩,
      List.forall_mem_cons.mpr ⟨hexpr hr, hes.sound hc (Site.not_constant_of_isSome hbody)⟩⟩

end Simple

theorem Frame.fits_block_nil {p : Program} {site : Site} : (Frame.block []).Fits p site :=
  List.forall_mem_nil _

theorem Frame.fits_forLoop_none {p : Program} {site : Site} :
    (Frame.forLoop none).Fits p site := by
  rintro _ ⟨⟩

mutual

/-- What a statement becomes is sound, at a site that knows the locals which the statement binds.
Later statements may use these locals too, so each part is carried over to the site of the whole. -/
theorem ElabStmt.sound {c c' s s'} (h : ElabStmt c s s' c') {site : Site} (hc : c.Fits site)
    (hbody : site.callable.isSome) : Lowers site c c' s'.binders [s'] := by
  cases h with
  | simple hs => exact hs.sound hc hbody
  | @declare _ name _ e' t scope hname he ht hvoid hbind =>
    have hall := he.sound hc (Site.not_constant_of_isSome hbody)
    -- the value was lowered before its local was there
    have hnew := Lowered.newLocal hc ⟨name, t, .declared⟩ (hall.known ht)
    have hgrows := hnew.adds.grows
    have hget := getLocal?_withLocal_self c.program ⟨name, t, .declared⟩
    obtain ⟨hframes, htail, hloop⟩ := Scope.bind_eq_ok hbind
      ⟨List.mem_append_right _ List.mem_cons_self, _, hget⟩ hnew.fits.frames
    refine ⟨⟨hnew.adds, ⟨hnew.fits.signatures, hframes, hnew.fits.constants⟩, htail, hloop⟩,
      List.forall_mem_singleton.mpr (.intro ?_ (List.forall_mem_nil _)),
      List.forall_mem_singleton.mpr (by rintro ⟨⟩)⟩
    have hte := typeOf_grows hgrows e' ht
    exact ⟨⟨t, hte, hvoid⟩, ⟨_, hget, rfl, hte⟩,
      List.forall_mem_singleton.mpr (hall.grows hgrows (site.le_bind _))⟩
  | conditional hne harms hotherwise =>
    obtain ⟨h1, hconditions⟩ := harms.sound hc hbody
    have h2 := hotherwise.sound h1.lowered.fits hbody
    have hgrows := h2.lowered.adds.grows
    refine (h1.append h2).nest rfl rfl ⟨?_, trivial, ?_⟩ ?_
    · exact fun arm harm => typeOf_grows hgrows _ (hconditions arm harm).1
    · rw [← Site.bind_bind]
      exact List.forall_mem_map.mpr fun arm harm =>
        (hconditions arm harm).2.grows hgrows (Site.le_bind _ _)
    · intro hloose
      cases hloose with
      | arm harm hs hl =>
        exact ⟨_, List.mem_append_left _ (List.mem_flatMap.mpr ⟨_, harm, hs⟩), hl⟩
      | otherwise hs hl => exact ⟨_, List.mem_append_right _ hs, hl⟩
  | @forLoop _ _ _ _ _ _ start' after' _ e' _ body' hstart he hte hafter hblock =>
    -- in the order of lowering: the start, the condition, what is done after a round, the body
    have h1 := hstart.sound (hc.withFrame Frame.fits_forLoop_none) hbody
    have hall := he.sound h1.lowered.fits (Site.not_constant_of_isSome hbody)
    have h2 := hafter.sound h1.lowered.fits hbody
    have h3 := (hblock.sound (h2.lowered.fits.withFrame Frame.fits_block_nil) hbody).block
    have htail := h2.append h3
    have hgrows := htail.lowered.adds.grows
    have hloop := h1.append htail
    refine ⟨hloop.lowered.withFrame, List.forall_mem_singleton.mpr
      (.intro ⟨typeOf_grows hgrows e' hte, trivial, ?_⟩ hloop.sound),
      List.forall_mem_singleton.mpr (by rintro ⟨⟩)⟩
    refine List.forall_mem_singleton.mpr (hall.grows hgrows ?_)
    show (site.bind (partBinders start')).Le
      (site.bind (partBinders start' ++ (partBinders after' ++ blockBinders body')))
    rw [← Site.bind_bind]
    exact Site.le_bind _ _
  | @forEach _ _ item _ e' t itemType _ _ _ hname he ht hkind hblock =>
    have hall := he.sound hc (Site.not_constant_of_isSome hbody)
    have hknown : itemType.Known c.program := by
      have hiterable := hall.known ht
      obtain ⟨rfl, _⟩ | ⟨rfl, _⟩ := iterableKind_eq_ok.mp hkind
      · exact hiterable
      · exact hiterable
    have hnew := Lowered.newLocal hc ⟨item, itemType, .forEachItem⟩ hknown
    have hget := getLocal?_withLocal_self c.program ⟨item, itemType, .forEachItem⟩
    have hframe : (Frame.forEach ⟨item, ⟨c.program.locals.size⟩⟩).Fits
        (c.program.withLocal ⟨item, itemType, .forEachItem⟩)
        (site.bind [⟨c.program.locals.size⟩]) :=
      ⟨List.mem_append_right _ List.mem_cons_self, _, hget⟩
    have hinner := Lowers.block (c := ⟨_, .forEach _ :: c.scope⟩)
      (hblock.sound ((hnew.fits.withFrame hframe).withFrame Frame.fits_block_nil) hbody)
    have hwhole := hnew.trans (hinner.lowered.withFrame (c := ⟨_, c.scope⟩))
    have hgrows := hwhole.adds.grows
    refine ⟨hwhole, List.forall_mem_singleton.mpr (.intro ⟨?_, ?_, ?_⟩ ?_),
      List.forall_mem_singleton.mpr (by rintro ⟨⟩)⟩
    · exact ⟨t, typeOf_grows hgrows e' ht, iterableKind_eq_ok.mpr (iterableKind_eq_ok.mp hkind)⟩
    · exact ⟨hknown.grows hgrows, _, hinner.lowered.adds.grows.locals hget, rfl, rfl⟩
    · exact List.forall_mem_singleton.mpr (hall.grows hgrows (Site.le_bind _ _))
    · intro s hs
      have hsound := hinner.sound s hs
      rw [Site.bind_bind] at hsound
      exact hsound

theorem ElabStmts.sound {c c' ss ss'} (h : ElabStmts c ss ss' c') {site : Site} (hc : c.Fits site)
    (hbody : site.callable.isSome) : Lowers site c c' (blockBinders ss') ss' := by
  cases h with
  | nil => exact .nil hc
  | cons hs hss =>
    have h1 := hs.sound hc hbody
    exact h1.append (hss.sound h1.lowered.fits hbody)

theorem ElabPart.sound {c c' part part'} (h : ElabPart c part part' c') {site : Site}
    (hc : c.Fits site) (hbody : site.callable.isSome) :
    Lowers site c c' (partBinders part') part'.toList := by
  cases h with
  | none => exact .nil hc
  | some hs => exact hs.sound hc hbody

theorem ElabArms.sound {c c' arms arms'} (h : ElabArms c arms arms' c') {site : Site}
    (hc : c.Fits site) (hbody : site.callable.isSome) :
    Lowers site c c' (armBinders arms') (arms'.flatMap (·.2)) ∧
      ∀ arm ∈ arms', typeOf c'.program arm.1 = .ok .bool ∧
        arm.1.All (Expr.Sound c'.program (site.bind (armBinders arms'))) := by
  cases h with
  | nil => exact ⟨.nil hc, List.forall_mem_nil _⟩
  | @cons _ _ _ _ e' _ block' _ arms' he hte hblock harms =>
    have hall := he.sound hc (Site.not_constant_of_isSome hbody)
    have h1 := (hblock.sound (hc.withFrame Frame.fits_block_nil) hbody).block
    obtain ⟨h2, hconditions⟩ := harms.sound h1.lowered.fits hbody
    have hwhole := h1.append h2
    have hgrows := hwhole.lowered.adds.grows
    refine ⟨hwhole, List.forall_mem_cons.mpr
      ⟨⟨typeOf_grows hgrows e' hte, hall.grows hgrows (Site.le_bind _ _)⟩, fun arm harm => ?_⟩⟩
    show _ ∧ arm.1.All (Expr.Sound _ (site.bind (blockBinders block' ++ armBinders arms')))
    rw [← Site.bind_bind]
    exact hconditions arm harm

theorem ElabOtherwise.sound {c c' otherwise otherwise'}
    (h : ElabOtherwise c otherwise otherwise' c') {site : Site} (hc : c.Fits site)
    (hbody : site.callable.isSome) :
    Lowers site c c' (otherwiseBinders otherwise') (otherwise'.getD []) := by
  cases h with
  | none => exact .nil hc
  | some hblock => exact (hblock.sound (hc.withFrame Frame.fits_block_nil) hbody).block

end

/-- The body of a callable: no `break` or `continue` leaves it. -/
theorem lowerBlock_sound {site : Site} {c c' : Context} {block : Syntax.Block} {body : Block}
    (hbody : site.callable.isSome) (hc : c.Fits site) (h : lowerBlock block c = .ok body c') :
    Lowers site c c' (blockBinders body) body := by
  unfold lowerBlock at h
  obtain ⟨c1, hblock, rfl⟩ := Lower.withFrame_eq_ok.mp h
  have hlowers := ((lowerStmts_eq_ok _).mp hblock).sound (hc.withFrame Frame.fits_block_nil) hbody
  have htail : c1.scope.tail = c.scope := hlowers.lowered.tail
  rw [htail]
  exact hlowers.block

end Scribe.Lowering
