import FlowTyping.Proofs.Approximation

namespace FlowTyping

variable {a : Analysis} {name : Text} {t : Ty} {v : Value} {sites : List Nat}
  {c : Analysis.Setting} {site : Site} {value : Expr}

def Expr.indices (e : Expr) : List Nat := e.sites.map (·.2.index)

def Expr.indicesAll (fields : List (Text × Expr)) : List Nat :=
  (Expr.sitesAll fields).map (·.2.index)

namespace Analysis

/-- From the state `a`, the computation returns a type, and this type describes the value of every
run of a certain form. -/
def Covers (m : AnalysisM Ty) (a : Analysis) (sites : List Nat)
    (runs : Env → Value → Env → Log → Prop) : Prop :=
  ∃ t a', m.Returns a t a' ∧ a.Step [] sites a' ∧ a'.store.graph.Has t ∧
    ∀ ρ v ρ' log, a.Matches ρ → runs ρ v ρ' log →
      a'.Matches ρ' ∧ a'.Logged log ∧ a'.store.graph.Describes t v

namespace Covers

variable {m : AnalysisM Ty} {runs runs' : Env → Value → Env → Log → Prop}

theorem imp (hm : Covers m a sites runs) (h : ∀ ρ v ρ' log, runs' ρ v ρ' log → runs ρ v ρ' log) :
    Covers m a sites runs' := by
  obtain ⟨t, a', hrun, hstep, hhas, hsim⟩ := hm
  exact ⟨t, a', hrun, hstep, hhas, fun ρ v ρ' log hmatch hruns =>
    hsim ρ v ρ' log hmatch (h ρ v ρ' log hruns)⟩

theorem pure (ha : a.Sound) (ht : t.node? = none) :
    Covers (Pure.pure t) a [] fun ρ v ρ' log =>
      a.store.graph.Describes t v ∧ ρ' = ρ ∧ log = [] := by
  refine ⟨t, a, .pure t a, .refl ha, Graph.has_of_not_node ht, ?_⟩
  rintro ρ v _ _ hmatch ⟨hv, rfl, rfl⟩
  exact ⟨hmatch, logged_nil a, hv⟩

theorem evaluated (hm : Covers m a sites runs) (site : Site) :
    Covers (do evaluated site (← m)) a (site.index :: sites) fun ρ v ρ' log =>
      ∃ log', runs ρ v ρ' log' ∧ log = (site.index, v) :: log' := by
  obtain ⟨t, a', hrun, hstep, hhas, hsim⟩ := hm
  let a₁ : Analysis := { a' with types := (site.index, t) :: a'.types }
  have hstep₁ : a'.Step [] [site.index] a₁ :=
    ⟨.refl hstep.scopes.sound, [(site.index, t)], rfl, .refl _⟩
  have hevaluated : (Analysis.evaluated site t).Returns a' t a₁ :=
    (ExceptT.Returns.modify _ _).bind (.pure t a₁)
  refine ⟨t, a₁, hrun.bind hevaluated, ?_, hhas, ?_⟩
  · obtain ⟨hscopes, ts, hts, hperm⟩ := hstep.trans hstep₁
    exact ⟨hscopes, ts, hts, hperm.trans List.perm_append_comm⟩
  · rintro ρ v ρ' _ hmatch ⟨log, hruns, rfl⟩
    obtain ⟨hmatch', hlog, hv⟩ := hsim ρ v ρ' log hmatch hruns
    refine ⟨hmatch'.of_knows hstep₁.declared_eq fun _ _ => id, ?_, hv⟩
    rintro p hp
    rcases List.mem_cons.1 hp with rfl | hp
    · exact ⟨t, List.mem_cons_self, hv⟩
    · exact hlog.mono hstep₁ p hp

theorem literal (ha : a.Sound) (ht : t.node? = none) (site : Site) :
    Covers (Analysis.evaluated site t) a [site.index] fun ρ v ρ' log =>
      a.store.graph.Describes t v ∧ ρ' = ρ ∧ log = [(site.index, v)] := by
  refine ((pure ha ht).evaluated site).imp ?_
  rintro ρ v _ _ ⟨hv, rfl, rfl⟩
  exact ⟨[], ⟨hv, rfl, rfl⟩, rfl⟩

theorem bind {k : Ty → AnalysisM Ty} {R : Value → Env → Value → Env → Prop}
    (hm : Covers m a sites runs)
    (hk : ∀ t a₁, a₁.Sound → a₁.names = a.names → a₁.store.graph.Has t →
      ∃ t' a', (k t).Returns a₁ t' a' ∧ a₁.Step [] [] a' ∧ a'.store.graph.Has t' ∧
        ∀ ρ v w ρ', a₁.Matches ρ → a₁.store.graph.Describes t v → R v ρ w ρ' →
          a'.Matches ρ' ∧ a'.store.graph.Describes t' w) :
    Covers (m >>= k) a sites fun ρ w ρ' log =>
      ∃ v ρ₁, runs ρ v ρ₁ log ∧ R v ρ₁ w ρ' := by
  obtain ⟨t, a₁, hrun, hstep, hhas, hsim⟩ := hm
  obtain ⟨t', a', hrun', hstep', hhas', hsim'⟩ :=
    hk t a₁ hstep.scopes.sound hstep.scopes.names_eq hhas
  refine ⟨t', a', hrun.bind hrun', by simpa using hstep.trans hstep', hhas', ?_⟩
  rintro ρ w ρ' log hmatch ⟨v, ρ₁, hruns, hnext⟩
  obtain ⟨hmatch₁, hlog, hv⟩ := hsim ρ v ρ₁ log hmatch hruns
  obtain ⟨hmatch', hw⟩ := hsim' ρ₁ v w ρ' hmatch₁ hv hnext
  exact ⟨hmatch', hlog.mono hstep', hw⟩

end Covers

def CoversExpr (c : Setting) (a : Analysis) (e : Expr) : Prop :=
  Covers (eval c e) a e.indices fun ρ => Evaluates ρ e

theorem readName_covers (ha : a.Sound) (name : Text) (loc : Location) :
    Covers (readName c name loc) a [] fun ρ v ρ' log =>
      (ρ.read name = some v ∨ ρ.read name = none ∧ name = text "undefined" ∧ v = .undefined) ∧
        ρ' = ρ ∧ log = [] := by
  cases hlookup : a.stack.lookup name with
  | some t =>
    obtain ⟨hhas, hname⟩ := ha.stacked.lookup hlookup
    have hrun : (readName c name loc).Returns a t a := by
      refine (AnalysisM.returns_stack a).bind ?_
      simp only [hlookup]
      exact .pure t a
    refine ⟨t, a, hrun, .refl ha, hhas, ?_⟩
    rintro ρ v _ _ hmatch ⟨hread | ⟨hread, -⟩, rfl, rfl⟩
    · obtain ⟨t', ht', hv⟩ := hmatch.knows name v hread
      cases hlookup.symm.trans ht'
      exact ⟨hmatch, logged_nil a, hv⟩
    · -- A name that has a type is declared, so that it has a value too.
      have hsome := hmatch.mem_names_iff.1 hname
      simp [hread] at hsome
  | none =>
    have hunread {ρ : Env} {v : Value} (hmatch : a.Matches ρ) : ρ.read name ≠ some v := by
      intro hread
      obtain ⟨t', ht', -⟩ := hmatch.knows name v hread
      cases hlookup.symm.trans ht'
    by_cases hname : name = text "undefined"
    · have hrun : (readName c name loc).Returns a .undefined a := by
        refine (AnalysisM.returns_stack a).bind ?_
        simp only [hlookup, if_pos hname]
        exact .pure _ a
      refine ⟨.undefined, a, hrun, .refl ha, trivial, ?_⟩
      rintro ρ v _ _ hmatch ⟨hread | ⟨-, -, rfl⟩, rfl, rfl⟩
      · exact absurd hread (hunread hmatch)
      · exact ⟨hmatch, logged_nil a, .word rfl⟩
    · obtain ⟨a', hreport, hquiet, -⟩ := report_returns c.options (.undeclaredRead name) loc a
      have hrun : (readName c name loc).Returns a .unknown a' := by
        refine (AnalysisM.returns_stack a).bind ?_
        simp only [hlookup, if_neg hname]
        exact hreport.bind (.pure _ a')
      refine ⟨.unknown, a', hrun, hquiet.step ha, trivial, ?_⟩
      rintro ρ v _ _ hmatch ⟨hread | ⟨-, hundefined, -⟩, -, -⟩
      · exact absurd hread (hunread hmatch)
      · exact absurd hundefined hname

theorem property_returns (hc : c.Builtin) (ha : a.Sound) (ht : a.store.graph.Has t) (attr : Text) :
    ∃ t' st, (AnalysisM.ofTypeM (c.resolvers.property t (.named attr))).Returns a t'
        { a with store := st } ∧ a.store.Yields t' st ∧
      ∀ v w, a.store.graph.Describes t v → v.Reads attr w → st.graph.Describes t' w := by
  obtain ⟨t', st, hread, hyields, hcovers⟩ :=
    c.resolvers.builtinProperty_covers hc.limit ha.plain ht attr
  refine ⟨t', st, AnalysisM.returns_ofTypeM ?_, hyields, hcovers⟩
  rw [Resolvers.property, hc.property]
  exact hread

theorem readAttribute_returns (hc : c.Builtin) (ha : a.Sound) (ht : a.store.graph.Has t)
    (attr : Text) (loc : Location) :
    ∃ t' a', (readAttribute c t attr loc).Returns a t' a' ∧ a.Step [] [] a' ∧
      a'.store.graph.Has t' ∧ ∀ ρ v w ρ', a.Matches ρ → a.store.graph.Describes t v →
        v.Reads attr w ∧ ρ' = ρ → a'.Matches ρ' ∧ a'.store.graph.Describes t' w := by
  have hgraph : (AnalysisM.ofTypeM TypeM.graph).Returns a a.store.graph a :=
    AnalysisM.returns_ofTypeM (.graph a.store)
  by_cases hnullish : (c.options.nullishReads && isNullish a.store.graph t) = true
  · obtain ⟨a₁, hreport, hquiet, -⟩ := report_returns c.options (.nullishRead attr) loc a
    have hstep := hquiet.step ha
    obtain ⟨t', st, hread, hyields, hcovers⟩ := property_returns hc
      hstep.scopes.sound (hstep.scopes.grows.has ht) attr
    refine ⟨t', { a₁ with store := st }, hgraph.bind ?_, hstep.trans
      (step_store hstep.scopes.sound hyields), hyields.has, ?_⟩
    · simp only [if_pos hnullish]
      exact hreport.bind hread
    · rintro ρ v w _ hmatch hv ⟨hreads, rfl⟩
      exact ⟨(hmatch.quiet hquiet).store hyields.grows,
        hcovers v w (hv.mono hstep.scopes.grows) hreads⟩
  · obtain ⟨t', st, hread, hyields, hcovers⟩ := property_returns hc ha ht attr
    refine ⟨t', { a with store := st }, hgraph.bind ?_, step_store ha hyields, hyields.has, ?_⟩
    · simp only [if_neg hnullish]
      exact hread
    · rintro ρ v w _ hmatch hv ⟨hreads, rfl⟩
      exact ⟨hmatch.store hyields.grows, hcovers v w hv hreads⟩

theorem attribute_covers (hc : c.Builtin) (hvalue : CoversExpr c a value) (site : Site)
    (attr : Text) : CoversExpr c a (.attribute site value attr) := by
  have hread := hvalue.bind (R := fun v ρ w ρ' => v.Reads attr w ∧ ρ' = ρ)
    fun t a₁ ha _ ht => readAttribute_returns hc ha ht attr site.loc
  have hnoted := hread.evaluated site
  rw [bind_assoc] at hnoted
  rw [CoversExpr, eval]
  refine hnoted.imp fun ρ w ρ' log hruns => ?_
  cases hruns with
  | property hvalue hreads => exact ⟨_, ⟨_, _, hvalue, hreads, rfl⟩, rfl⟩

theorem assign_covers (hvalue : CoversExpr c a value) (site : Site) (hname : name ∈ a.names) :
    CoversExpr c a (.assign site name value) := by
  have hassign := hvalue.bind (k := fun t => do assign c name t site.loc; return t)
    (R := fun v ρ w ρ' => w = v ∧ Env.write name v ρ = some ρ') fun t a₁ ha hnames ht => by
      rw [← hnames] at hname
      refine ⟨t, _, (assign_returns hname site.loc).bind (.pure t _), step_bind ha hname ht, ht, ?_⟩
      rintro ρ v _ ρ' hmatch hv ⟨rfl, hwrite⟩
      exact ⟨hmatch.write hv hwrite, hv⟩
  have hnoted := hassign.evaluated site
  simp only [bind_assoc, pure_bind] at hnoted
  rw [CoversExpr, eval]
  refine hnoted.imp fun ρ w ρ' log hruns => ?_
  cases hruns with
  | assign hvalue hwrite => exact ⟨_, ⟨_, _, hvalue, rfl, hwrite⟩, rfl⟩

variable {g : Graph} {slots : List Slot} {key key' : PropertyKey}

theorem findSlot_setSlot_self (key : PropertyKey) (t : Ty) (slots : List Slot) :
    ∃ s, Shape.findSlot key (setSlot key t slots) = some s ∧ s.type = t := by
  induction slots with
  | nil => exact ⟨⟨key, t, false⟩, by simp [setSlot, Shape.findSlot], rfl⟩
  | cons s slots ih =>
    rw [setSlot]
    by_cases hs : s.key = key
    · exact ⟨{ s with type := t }, by simp [hs, Shape.findSlot], rfl⟩
    · simpa [hs, Shape.findSlot] using ih

theorem findSlot_setSlot_of_ne (hkey : key' ≠ key) :
    Shape.findSlot key' (setSlot key t slots) = Shape.findSlot key' slots := by
  induction slots with
  | nil => simp [setSlot, Shape.findSlot, hkey.symm]
  | cons s slots ih =>
    rw [setSlot]
    by_cases hs : s.key = key
    · simp [hs, Shape.findSlot, hkey.symm]
    · simp only [if_neg hs, Shape.findSlot, List.find?_cons]
      split
      · rfl
      · exact ih

def Required (g : Graph) (slots : List Slot) : Prop :=
  ∀ s ∈ slots, s.optional = false ∧ g.Has s.type

theorem Required.setSlot (hs : Required g slots) (ht : g.Has t) :
    Required g (setSlot key t slots) := by
  induction slots with
  | nil => simp [Required, Analysis.setSlot, ht]
  | cons s slots ih =>
    obtain ⟨hhead, hrest⟩ := List.forall_mem_cons.1 hs
    rw [Analysis.setSlot]
    split
    · exact List.forall_mem_cons.2 ⟨⟨hhead.1, ht⟩, hrest⟩
    · exact List.forall_mem_cons.2 ⟨hhead, ih hrest⟩

structure DescribesFields (g : Graph) (slots : List Slot) (fields : List (Text × Value)) :
    Prop where
  keys : ∀ k, (fields.lookup k).isSome = (Shape.findSlot (.named k) slots).isSome
  values : ∀ k v s, fields.lookup k = some v → Shape.findSlot (.named k) slots = some s →
    g.Describes s.type v

namespace DescribesFields

variable {fields : List (Text × Value)} {k : Text}

theorem nil (g : Graph) : DescribesFields g [] [] := ⟨fun _ => rfl, by simp⟩

theorem mono {h : Graph} (hgh : g.Extends h) (hf : DescribesFields g slots fields) :
    DescribesFields h slots fields :=
  ⟨hf.keys, fun k v s hk hs => (hf.values k v s hk hs).mono hgh⟩

theorem setSlot (hf : DescribesFields g slots fields) (hv : g.Describes t v) :
    DescribesFields g (setSlot (.named k) t slots) ((k, v) :: fields) := by
  obtain ⟨s, hs, rfl⟩ := findSlot_setSlot_self (.named k) t slots
  refine ⟨fun n => ?_, fun n w s' hn hs' => ?_⟩
  · rw [Text.lookup_cons]
    by_cases hnk : n = k
    · simp [hnk, hs]
    · rw [if_neg hnk, findSlot_setSlot_of_ne (by simpa using hnk)]
      exact hf.keys n
  · rw [Text.lookup_cons] at hn
    by_cases hnk : n = k
    · rw [if_pos hnk] at hn
      cases hn
      cases (hnk ▸ hs').symm.trans hs
      exact hv
    · rw [if_neg hnk] at hn
      rw [findSlot_setSlot_of_ne (by simpa using hnk)] at hs'
      exact hf.values n w s' hn hs'

theorem object {i : NodeId} (hf : DescribesFields g slots fields) (hi : g.shape i = .record slots) :
    g.Describes (.node i) (.object fields) := by
  refine .record hi (fun n hn => hf.keys n ▸ hn) (fun n s hs _ => ?_) hf.values
  rw [hf.keys n, hs]
  rfl

end DescribesFields

def CoversFields (c : Setting) (a : Analysis) (slots : List Slot) (fields : List (Text × Expr)) :
    Prop :=
  ∃ slots' a', (evalFields c fields slots).Returns a slots' a' ∧
    a.Step [] (Expr.indicesAll fields) a' ∧ Required a'.store.graph slots' ∧
    ∀ ρ done out ρ' log, a.Matches ρ → DescribesFields a.store.graph slots done →
      EvaluatesFields ρ fields done out ρ' log →
        a'.Matches ρ' ∧ a'.Logged log ∧ DescribesFields a'.store.graph slots' out

theorem alloc_record (ha : a.Sound) (hslots : Required a.store.graph slots) :
    ∃ i st, (AnalysisM.ofTypeM (TypeM.alloc (.record slots))).Returns a i { a with store := st } ∧
      a.store.Yields (.node i) st ∧ st.graph.shape i = .record slots := by
  refine ⟨_, _, AnalysisM.returns_ofTypeM (.alloc _ _), ⟨.push _ _, ?_, ?_⟩,
    Graph.shape_push_size _ _⟩
  · refine ha.plain.push (.record fun s hs => (hslots s hs).1) fun t ht => ?_
    obtain ⟨s, hs, rfl⟩ := List.mem_map.1 ht
    exact (hslots s hs).2
  · simp [Graph.Has]

theorem object_covers {fields : List (Text × Expr)} (hfields : CoversFields c a [] fields)
    (site : Site) : CoversExpr c a (.object site fields) := by
  obtain ⟨slots, a₁, hrun, hstep, hrequired, hsim⟩ := hfields
  obtain ⟨i, st, halloc, hyields, hi⟩ := alloc_record hstep.scopes.sound hrequired
  have hrecord : Covers (do
      let slots ← evalFields c fields []
      return .node (← AnalysisM.ofTypeM (TypeM.alloc (.record slots)))) a (Expr.indicesAll fields)
      fun ρ v ρ' log => ∃ out, EvaluatesFields ρ fields [] out ρ' log ∧ v = .object out := by
    have hstep' := step_store hstep.scopes.sound hyields
    refine ⟨.node i, _, hrun.bind (halloc.bind (.pure _ _)), by simpa using hstep.trans hstep',
      hyields.has, ?_⟩
    rintro ρ _ ρ' log hmatch ⟨out, hruns, rfl⟩
    obtain ⟨hmatch', hlog, hout⟩ := hsim ρ [] out ρ' log hmatch (.nil _) hruns
    exact ⟨hmatch'.store hyields.grows, hlog.mono hstep', (hout.mono hyields.grows).object hi⟩
  have hnoted := hrecord.evaluated site
  simp only [bind_assoc, pure_bind] at hnoted
  rw [CoversExpr, eval]
  refine hnoted.imp fun ρ v ρ' log hruns => ?_
  cases hruns with
  | object hfields => exact ⟨_, ⟨_, hfields, rfl⟩, rfl⟩

theorem fields_cons (key : Text) {rest : List (Text × Expr)}
    (hslots : Required a.store.graph slots) (hvalue : CoversExpr c a value)
    (hrest : ∀ slots' a₁, a₁.Sound → a₁.names = a.names → Required a₁.store.graph slots' →
      CoversFields c a₁ slots' rest) :
    CoversFields c a slots ((key, value) :: rest) := by
  obtain ⟨t, a₁, hrun₁, hstep₁, ht, hsim₁⟩ := hvalue
  have hslots₁ : Required a₁.store.graph slots :=
    fun s hs => ⟨(hslots s hs).1, hstep₁.scopes.grows.has (hslots s hs).2⟩
  obtain ⟨slots', a₂, hrun₂, hstep₂, hslots₂, hsim₂⟩ := hrest (setSlot (.named key) t slots) a₁
    hstep₁.scopes.sound hstep₁.scopes.names_eq (hslots₁.setSlot ht)
  have hstep := hstep₁.trans hstep₂
  rw [Expr.indices, Expr.indicesAll, ← List.map_append] at hstep
  rw [CoversFields, evalFields]
  refine ⟨slots', a₂, hrun₁.bind hrun₂, hstep, hslots₂, ?_⟩
  intro ρ done out ρ' log hmatch hdone hruns
  cases hruns with
  | cons hvalue hrest =>
    obtain ⟨hmatch₁, hlog₁, hv⟩ := hsim₁ _ _ _ _ hmatch hvalue
    obtain ⟨hmatch₂, hlog₂, hout⟩ := hsim₂ _ _ _ _ _ hmatch₁
      ((hdone.mono hstep₁.scopes.grows).setSlot hv) hrest
    exact ⟨hmatch₂, (hlog₁.mono hstep₂).append hlog₂, hout⟩

mutual

theorem eval_covers (hc : c.Builtin) (e : Expr) {a : Analysis} (ha : a.Sound)
    (he : e.inOrder a.names = true) : CoversExpr c a e := by
  match e with
  | .missing =>
    rw [CoversExpr, eval]
    refine (Covers.pure (t := .undefined) ha rfl).imp fun ρ v ρ' log hruns => ?_
    cases hruns
    exact ⟨.word rfl, rfl, rfl⟩
  | .string site x =>
    rw [CoversExpr, eval]
    refine (Covers.literal (t := .string x) ha rfl site).imp fun ρ v ρ' log hruns => ?_
    cases hruns
    exact ⟨.string x, rfl, rfl⟩
  | .number site x =>
    rw [CoversExpr, eval]
    refine (Covers.literal (t := .number x) ha rfl site).imp fun ρ v ρ' log hruns => ?_
    cases hruns
    exact ⟨.number x, rfl, rfl⟩
  | .boolean site b =>
    rw [CoversExpr, eval]
    refine (Covers.literal (t := .boolean b) ha rfl site).imp fun ρ v ρ' log hruns => ?_
    cases hruns
    exact ⟨.boolean b, rfl, rfl⟩
  | .null site =>
    rw [CoversExpr, eval]
    refine (Covers.literal (t := .simple .null) ha rfl site).imp fun ρ v ρ' log hruns => ?_
    cases hruns
    exact ⟨.word rfl, rfl, rfl⟩
  | .name site name =>
    rw [CoversExpr, eval]
    refine ((readName_covers ha name site.loc).evaluated site).imp fun ρ v ρ' log hruns => ?_
    cases hruns with
    | name hread => exact ⟨[], ⟨.inl hread, rfl, rfl⟩, rfl⟩
    | undefined hread => exact ⟨[], ⟨.inr ⟨hread, rfl, rfl⟩, rfl, rfl⟩, rfl⟩
  | .attribute site value attr =>
    rw [Expr.inOrder] at he
    exact attribute_covers hc (eval_covers hc value ha he) site attr
  | .assign site name value =>
    rw [Expr.inOrder, Bool.and_eq_true, List.contains_iff_mem] at he
    exact assign_covers (eval_covers hc value ha he.2) site he.1
  | .object site fields =>
    rw [Expr.inOrder] at he
    exact object_covers (evalFields_covers hc fields ha he (by simp [Required])) site
  | .unsupported site => cases he

theorem evalFields_covers (hc : c.Builtin) (fields : List (Text × Expr)) {a : Analysis}
    {slots : List Slot} (ha : a.Sound) (hfields : Expr.inOrderAll a.names fields = true)
    (hslots : Required a.store.graph slots) : CoversFields c a slots fields := by
  match fields with
  | [] =>
    rw [CoversFields, evalFields]
    refine ⟨slots, a, .pure slots a, .refl ha, hslots, ?_⟩
    intro ρ done out ρ' log hmatch hdone hruns
    cases hruns
    exact ⟨hmatch, logged_nil a, hdone⟩
  | (key, value) :: rest =>
    rw [Expr.inOrderAll, Bool.and_eq_true] at hfields
    refine fields_cons key hslots (eval_covers hc value ha hfields.1) ?_
    intro slots' a₁ ha₁ hnames hslots'
    exact evalFields_covers hc rest ha₁ (hnames ▸ hfields.2) hslots'

end

end Analysis

end FlowTyping
