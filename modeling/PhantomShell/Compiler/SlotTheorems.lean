import PhantomShell.Compiler.ExpressionTheorems
import PhantomShell.Compiler.Reached
import PhantomShell.Compiler.SignatureTheorems

/-!
# The slots of visible variables

Every scope numbers its variables from behind those of its parent (`Nested`), so the variables from
the function or root scope on lie in the slots 0, 1, 2, … in the order of their declaration
(`Laid`). A slot has one byte, and the parameters of a function are declared without a lookup:
these are the two ways in which variables can meet.
-/

namespace PhantomShell

/-! ## What is claimed -/

/-- A save to the slot of `v` does not change what a load of `w` pushes. -/
def ScopeVar.Spares (v w : ScopeVar) : Prop :=
  ∀ frame frame' data shift, saveWord frame (v.index :: data) = .ok (frame', shift) →
    frame'.locals[w.index.toNat]? = frame.locals[w.index.toNat]?

/-- Two variables have distinct names and slots, and none of them writes the other. -/
def ScopeVar.Apart (v w : ScopeVar) : Prop :=
  v.name ≠ w.name ∧ v.index ≠ w.index ∧ v.Spares w ∧ w.Spares v

/-- The variables that the current scope or one of those around it sees are apart. -/
def AliasFree (chain : ScopeChain) : Prop :=
  ∀ scope parents, scope :: parents <:+ chain.scope :: chain.parents →
    (visibleVars scope parents).Pairwise ScopeVar.Apart

/-! ## The order of declaration -/

/-- The variables of a scope and of all scopes around it, in the order of their declaration. -/
def declaredVars : ScopeHandler → List ScopeHandler → Vars
  | scope, [] => scope.vars
  | scope, parent :: rest => declaredVars parent rest ++ scope.vars

def ScopeChain.declared (chain : ScopeChain) : Vars := declaredVars chain.scope chain.parents

/-- Each scope begins behind its parent, and only the last one can be that of a function. -/
def Nested : ScopeHandler → List ScopeHandler → Prop
  | scope, [] => scope.varsOff = 0
  | scope, parent :: rest =>
    scope.isFunctionScope = false ∧ scope.varsOff = parent.vars.length + parent.varsOff ∧
      Nested parent rest

lemma Nested.length {scope : ScopeHandler} {parents : List ScopeHandler}
    (h : Nested scope parents) :
    (declaredVars scope parents).length = scope.vars.length + scope.varsOff := by
  induction parents generalizing scope with
  | nil =>
    change scope.varsOff = 0 at h
    rw [declaredVars, h, Nat.add_zero]
  | cons parent rest ih =>
    obtain ⟨-, hoff, hrest⟩ := h
    rw [declaredVars, List.length_append, ih hrest, hoff, Nat.add_comm]

/-- A nested scope sees all that is declared. -/
lemma Nested.perm {scope : ScopeHandler} {parents : List ScopeHandler}
    (h : Nested scope parents) : (visibleVars scope parents).Perm (declaredVars scope parents) := by
  induction parents generalizing scope with
  | nil => exact .refl _
  | cons parent rest ih =>
    obtain ⟨hscope, -, hrest⟩ := h
    rw [visibleVars, declaredVars, hscope, if_neg (by decide)]
    exact List.perm_append_comm.trans ((ih hrest).append_right _)

/-- The scopes around a nested one are nested, and declare the first variables. -/
lemma Nested.suffix {scope scope' : ScopeHandler} {parents parents' : List ScopeHandler}
    (h : Nested scope parents) (hsuffix : scope' :: parents' <:+ scope :: parents) :
    Nested scope' parents' ∧ declaredVars scope' parents' <+: declaredVars scope parents := by
  induction parents generalizing scope with
  | nil =>
    rcases List.suffix_cons_iff.mp hsuffix with heq | hsuffix
    · cases heq
      exact ⟨h, List.prefix_refl _⟩
    · cases List.suffix_nil.mp hsuffix
  | cons parent rest ih =>
    rcases List.suffix_cons_iff.mp hsuffix with heq | hsuffix
    · cases heq
      exact ⟨h, List.prefix_refl _⟩
    · obtain ⟨hnested, hprefix⟩ := ih h.2.2 hsuffix
      exact ⟨hnested, hprefix.trans (List.prefix_append _ _)⟩

lemma getElem?_concat_eq_some {α : Type} {xs : List α} {a v : α} {i : ℕ}
    (h : (xs ++ [a])[i]? = some v) :
    i < xs.length ∧ xs[i]? = some v ∨ i = xs.length ∧ v = a := by
  rcases Nat.lt_or_ge i xs.length with hlt | hge
  · rw [List.getElem?_append_left hlt] at h
    exact .inl ⟨hlt, h⟩
  · obtain ⟨hlen, hv⟩ := List.getElem?_eq_some_iff.mp h
    obtain rfl : i = xs.length := by
      simp only [List.length_append, List.length_singleton] at hlen
      omega
    exact .inr ⟨rfl, by simpa using hv.symm⟩

/-- The variables lie in their slots in order; the first ones have the given names, and the
others have names of their own. -/
structure Laid (names : List CStr) (chain : ScopeChain) : Prop where
  nested : Nested chain.scope chain.parents
  params : (chain.declared.map (·.name)).take names.length = names
  numbered : ∀ i var, chain.declared[i]? = some var → var.index = UInt8.ofNat i
  fresh : ∀ i var, names.length ≤ i → chain.declared[i]? = some var →
    var.name ∉ (chain.declared.take i).map (·.name)

namespace Laid

variable {names : List CStr} {chain chain' : ScopeChain}

/-- Only the variables and the nesting count. -/
lemma congr (h : Laid names chain) (hnested : Nested chain'.scope chain'.parents)
    (hdeclared : chain'.declared = chain.declared) : Laid names chain' :=
  ⟨hnested, by rw [hdeclared]; exact h.params, by rw [hdeclared]; exact h.numbered,
    by rw [hdeclared]; exact h.fresh⟩

/-- One more variable in the current scope. -/
lemma concat (h : Laid names chain) {var : ScopeVar}
    (hnested : Nested chain'.scope chain'.parents)
    (hdeclared : chain'.declared = chain.declared ++ [var])
    (hindex : var.index = UInt8.ofNat chain.declared.length)
    (hfresh : var.name ∉ chain.declared.map (·.name)) : Laid names chain' := by
  have hlen : names.length ≤ chain.declared.length := by
    have := congrArg List.length h.params
    simp only [List.length_take, List.length_map] at this
    omega
  refine ⟨hnested, ?_, ?_, ?_⟩
  · rw [hdeclared, List.map_append, List.take_append_of_le_length (by simpa using hlen)]
    exact h.params
  · intro i v hv
    rw [hdeclared] at hv
    rcases getElem?_concat_eq_some hv with ⟨-, hv⟩ | ⟨rfl, rfl⟩
    · exact h.numbered i v hv
    · exact hindex
  · intro i v hi hv
    rw [hdeclared] at hv ⊢
    rcases getElem?_concat_eq_some hv with ⟨hlt, hv⟩ | ⟨rfl, rfl⟩
    · rw [List.take_append_of_le_length hlt.le]
      exact h.fresh i v hi hv
    · rw [List.take_left]
      exact hfresh

/-- Names are the parameters' or new, and a slot comes again after 256. -/
lemma pairwise_iff (h : Laid names chain) :
    chain.declared.Pairwise (fun v w => v.name ≠ w.name ∧ v.index ≠ w.index) ↔
      names.Nodup ∧ chain.declared.length ≤ 256 := by
  rw [List.pairwise_iff_getElem]
  constructor
  · intro hpair
    constructor
    · rw [← h.params, List.nodup_iff_pairwise_ne, List.pairwise_iff_getElem]
      intro i j hi hj hij
      simp only [List.length_take, List.length_map] at hi hj
      simp only [List.getElem_take, List.getElem_map]
      exact (hpair i j (by omega) (by omega) hij).1
    · -- the variables 256 places apart have the same slot
      by_contra hlong
      refine (hpair 0 256 (by omega) (by omega) (by omega)).2 ?_
      rw [h.numbered 0 _ (List.getElem?_eq_getElem (by omega)),
        h.numbered 256 _ (List.getElem?_eq_getElem (by omega))]
      rfl
  · rintro ⟨hnodup, hlen⟩ i j hi hj hij
    constructor
    · rcases Nat.lt_or_ge j names.length with hlt | hge
      · rw [← h.params, List.nodup_iff_pairwise_ne, List.pairwise_iff_getElem] at hnodup
        have hne := hnodup i j (by simp; omega) (by simp; omega) hij
        simpa only [List.getElem_take, List.getElem_map] using hne
      · intro heq
        refine h.fresh j _ hge (List.getElem?_eq_getElem hj) (List.mem_map.mpr ⟨_, ?_, heq⟩)
        exact List.mem_take_iff_getElem.mpr ⟨i, by omega, rfl⟩
    · rw [h.numbered i _ (List.getElem?_eq_getElem hi), h.numbered j _ (List.getElem?_eq_getElem hj)]
      intro heq
      have := congrArg UInt8.toNat heq
      simp only [UInt8.toNat_ofNat'] at this
      omega

end Laid

/-- A save writes its slot only. -/
lemma ScopeVar.spares_of_ne {v w : ScopeVar} (h : v.index ≠ w.index) : v.Spares w := by
  intro frame frame' data shift hsave
  have hne : v.index.toNat ≠ w.index.toNat := fun heq => h (UInt8.toNat_inj.mp heq)
  cases hstack : frame.stack with
  | nil => simp [saveWord, hstack] at hsave
  | cons word rest =>
    simp only [saveWord, hstack] at hsave
    split at hsave
    · cases hsave
      exact List.getElem?_set_ne hne
    · cases hsave

lemma ScopeVar.apart_iff {v w : ScopeVar} :
    v.Apart w ↔ v.name ≠ w.name ∧ v.index ≠ w.index :=
  ⟨fun h => ⟨h.1, h.2.1⟩, fun h => ⟨h.1, h.2, spares_of_ne h.2, spares_of_ne h.2.symm⟩⟩

lemma ScopeVar.Apart.symm {v w : ScopeVar} (h : v.Apart w) : w.Apart v :=
  ⟨h.1.symm, h.2.1.symm, h.2.2.2, h.2.2.1⟩

lemma Laid.length_vars {names : List CStr} {chain : ScopeChain} (h : Laid names chain) :
    chain.vars.length = chain.declared.length := h.nested.perm.length_eq

/-- What keeps the visible variables apart. -/
lemma Laid.aliasFree_iff {names : List CStr} {chain : ScopeChain} (h : Laid names chain) :
    AliasFree chain ↔ names.Nodup ∧ chain.vars.length ≤ 256 := by
  have hsymm : ∀ {v w : ScopeVar}, v.Apart w → w.Apart v := ScopeVar.Apart.symm
  have happart : chain.declared.Pairwise ScopeVar.Apart ↔ names.Nodup ∧ chain.vars.length ≤ 256 := by
    rw [h.length_vars, ← h.pairwise_iff]
    exact List.Pairwise.iff fun _ _ => ScopeVar.apart_iff
  rw [← happart]
  constructor
  · intro hfree
    exact (h.nested.perm.pairwise_iff hsymm).mp (hfree _ _ List.suffix_rfl)
  · intro hpair scope parents hsuffix
    obtain ⟨hnested, hprefix⟩ := h.nested.suffix hsuffix
    exact (hnested.perm.pairwise_iff hsymm).mpr (hpair.sublist hprefix.sublist)

/-! ## The invariant -/

lemma Nested.congr {scope scope' : ScopeHandler} {parents : List ScopeHandler}
    (h : Nested scope parents) (hfunc : scope'.isFunctionScope = scope.isFunctionScope)
    (hoff : scope'.varsOff = scope.varsOff) : Nested scope' parents := by
  cases parents with
  | nil => exact hoff.trans h
  | cons parent rest => exact ⟨hfunc.trans h.1, hoff.trans h.2.1, h.2.2⟩

lemma declared_moved (s : CompilerState) (emitter : ScopeEmitter) (account : ℕ × ℕ)
    (events : List Event) (newVars : List ScopeVar) (m : ℕ) :
    (s.moved emitter account events newVars m).chain.declared = s.chain.declared ++ newVars := by
  simp only [ScopeChain.declared, CompilerState.moved]
  cases s.chain.parents with
  | nil => rfl
  | cons parent rest => simp [declaredVars]

/-- A name that the lookup misses is not declared. -/
lemma Laid.fresh_of_lookup {names : List CStr} {chain : ScopeChain} (h : Laid names chain)
    {name : CStr} (hnew : chain.lookup name = none) : name ∉ chain.declared.map (·.name) := by
  rw [lookup_vars, lookupVar, List.find?_eq_none] at hnew
  intro hmem
  obtain ⟨var, hvar, rfl⟩ := List.mem_map.mp hmem
  exact hnew var (h.nested.perm.mem_iff.mpr hvar) (by simp)

/-- A declaration takes the next slot. -/
lemma Laid.define {names : List CStr} {s s' : CompilerState} (h : Laid names s.chain)
    {t : StaticType} {name : CStr} {var : ScopeVar} (hdefine : frameDefineVar t name s = .ok var s') :
    Nested s'.chain.scope s'.chain.parents ∧ s'.chain.declared = s.chain.declared ++ [var] ∧
      var.name = name ∧ var.index = UInt8.ofNat s.chain.declared.length := by
  obtain ⟨-, rfl, rfl⟩ := frameDefineVar_eq_ok hdefine
  exact ⟨h.nested.congr rfl rfl, declared_moved _ _ _ _ _ _, rfl, by
    rw [ScopeChain.declared, h.nested.length]⟩

lemma laid_invariant (names : List CStr) : CompileInvariant fun s => Laid names s.chain where
  moved hs _ := hs.congr (hs.nested.congr rfl rfl) (by rw [declared_moved, List.append_nil])
  define hs hnew hdefine := by
    obtain ⟨hnested, hdeclared, hname, hindex⟩ := hs.define hdefine
    exact hs.concat hnested hdeclared hindex (hname ▸ hs.fresh_of_lookup hnew)
  child hs := hs.congr ⟨rfl, rfl, hs.nested⟩ (by simp [ScopeChain.declared, declaredVars, childState])

/-! ## Programs -/

/-- Each variable of a chain can be a parameter. -/
lemma laid_all {chain : ScopeChain} (hnested : Nested chain.scope chain.parents)
    (hnumbered : ∀ i var, chain.declared[i]? = some var → var.index = UInt8.ofNat i) :
    Laid (chain.declared.map (·.name)) chain := by
  refine ⟨hnested, List.take_length, hnumbered, fun i var hi hvar => ?_⟩
  obtain ⟨hlt, -⟩ := List.getElem?_eq_some_iff.mp hvar
  rw [List.length_map] at hi
  omega

/-- The parameters are declared one behind the other, whatever their names are. -/
lemma Laid.defineParams {names : List CStr} {args : List (CStr × CStr)} {s s' : CompilerState}
    (h : Laid names s.chain) (hnames : s.chain.declared.map (·.name) = names)
    (hdefine : PhantomShell.defineParams args s = .ok () s') :
    Laid (names ++ args.map Prod.fst) s'.chain ∧
      s'.chain.declared.map (·.name) = names ++ args.map Prod.fst := by
  induction args generalizing names s with
  | nil =>
    obtain ⟨-, rfl⟩ := estate_pure_eq_ok.mp hdefine
    rw [List.map_nil, List.append_nil]
    exact ⟨h, hnames⟩
  | cons arg args ih =>
    obtain ⟨_, s₁, h₁, hrest⟩ := estate_bind_eq_ok.mp hdefine
    obtain ⟨argType, s₂, htype, h₁⟩ := estate_bind_eq_ok.mp h₁
    obtain ⟨-, rfl⟩ := staticTypeByName_eq_ok htype
    obtain ⟨var, s₂, hvar, h₁⟩ := estate_bind_eq_ok.mp h₁
    obtain ⟨-, rfl⟩ := estate_pure_eq_ok.mp h₁
    obtain ⟨hnested, hdeclared, hname, hindex⟩ := h.define hvar
    have hnames₁ : s₂.chain.declared.map (·.name) = names ++ [arg.1] := by
      rw [hdeclared, List.map_append, hnames, List.map_singleton, hname]
    have hlaid₁ : Laid (names ++ [arg.1]) s₂.chain := by
      rw [← hnames₁]
      refine laid_all hnested fun i v hv => ?_
      rw [hdeclared] at hv
      rcases getElem?_concat_eq_some hv with ⟨-, hv⟩ | ⟨rfl, rfl⟩
      · exact h.numbered i v hv
      · exact hindex
    simpa using ih hlaid₁ hnames₁ hrest

lemma laid_init (isInteractive : Bool) : Laid [] (compilerInit isInteractive).chain :=
  ⟨rfl, rfl, nofun, nofun⟩

section Program

variable {isInteractive : Bool} {fuel : ℕ} {program : List TopLevel}

/-- Between the statements the root scope is laid out. -/
lemma laid_program {before : List TopLevel} {s : CompilerState}
    (h : compileProgram fuel before (compilerInit isInteractive) = .ok () s) : Laid [] s.chain := by
  refine compileProgram_keeps (R := fun s s' => Laid [] s.chain → Laid [] s'.chain)
    (fun _ hs => hs) (fun h₁ h₂ => h₂ ∘ h₁) ?_ before _ _ _ h (laid_init isInteractive)
  intro node s ret s' hnode hs
  cases node with
  | stat stat => exact (laid_invariant []).statement hs hnode
  | func func =>
    rw [(compileFunc_chain hnode).1]
    exact hs

lemma laid_function (s : CompilerState) :
    Laid [] s.function.chain ∧ s.function.chain.declared.map (·.name) = [] :=
  ⟨⟨rfl, rfl, nofun, nofun⟩, rfl⟩

/-- So is a function behind some of its parameters. -/
lemma laid_params {args : List (CStr × CStr)} {s : CompilerState}
    (h : ParamsDefined isInteractive fuel program args s) : Laid (args.map Prod.fst) s.chain := by
  obtain ⟨func, s₀, rest, ⟨_, _, s₁, -, -, rfl⟩, -, hdefine⟩ := h
  obtain ⟨hlaid, hnames⟩ := laid_function s₁
  exact (hlaid.defineParams hnames hdefine).1

lemma laid_entry {c : Call} (h : EntryCall isInteractive fuel program c) :
    ∃ names, Laid names c.state.chain ∧
      (names = [] ∨ ∃ args s, ParamsDefined isInteractive fuel program args s ∧
        names = args.map Prod.fst) := by
  cases h with
  | stat hbegins =>
    obtain ⟨before, after, -, hrun⟩ := hbegins
    exact ⟨[], laid_program hrun, .inl rfl⟩
  | @body func s₀ s hfunc hdefine =>
    have hparams : ParamsDefined isInteractive fuel program func.args s :=
      ⟨func, s₀, [], hfunc, by simp, hdefine⟩
    exact ⟨_, laid_params hparams, .inr ⟨_, _, hparams, rfl⟩⟩

/-- In every state the variables are laid out behind the parameters that were declared. -/
theorem laid_reached {s : CompilerState} (h : Reached isInteractive fuel program s) :
    ∃ names, Laid names s.chain ∧
      (names = [] ∨ ∃ args s, ParamsDefined isInteractive fuel program args s ∧
        names = args.map Prod.fst) := by
  cases h with
  | between _ hrun => exact ⟨[], laid_program hrun, .inl rfl⟩
  | params hparams => exact ⟨_, laid_params hparams, .inr ⟨_, _, hparams, rfl⟩⟩
  | call hentry hreaches =>
    obtain ⟨names, hlaid, hnames⟩ := laid_entry hentry
    exact ⟨names, (laid_invariant names).reaches hreaches hlaid, hnames⟩
  | «return» hentry hreaches hrun =>
    obtain ⟨names, hlaid, hnames⟩ := laid_entry hentry
    exact ⟨names, (laid_invariant names).returns hrun
      ((laid_invariant names).reaches hreaches hlaid), hnames⟩

end Program

/-- The visible variables are apart in all states of a program exactly when none of its functions
declares two parameters of one name, and no scope comes to see more than 256 variables. -/
theorem visible_apart_iff (isInteractive : Bool) (fuel : ℕ) (program : List TopLevel) :
    (∀ s, Reached isInteractive fuel program s → AliasFree s.chain) ↔
      (∀ args s, ParamsDefined isInteractive fuel program args s → (args.map Prod.fst).Nodup) ∧
        ∀ s, Reached isInteractive fuel program s → s.chain.vars.length ≤ 256 := by
  constructor
  · intro hfree
    refine ⟨fun args s hparams => ?_, fun s hs => ?_⟩
    · exact ((laid_params hparams).aliasFree_iff.mp (hfree s (.params hparams))).1
    · obtain ⟨names, hlaid, -⟩ := laid_reached hs
      exact (hlaid.aliasFree_iff.mp (hfree s hs)).2
  · rintro ⟨hnodup, hlen⟩ s hs
    obtain ⟨names, hlaid, hnames⟩ := laid_reached hs
    refine hlaid.aliasFree_iff.mpr ⟨?_, hlen s hs⟩
    rcases hnames with rfl | ⟨args, s₀, hparams, rfl⟩
    · exact List.nodup_nil
    · exact hnodup args s₀ hparams

/-- `func f (int a, int a) void {}` has two variables of one name. -/
theorem visible_not_apart :
    let func : DeclFunc := ⟨[102], [([97], intName), ([97], intName)], some voidName, .nil⟩
    ¬ ∀ s, Reached true 1 [.func func] s → AliasFree s.chain := by
  intro func hfree
  have hdecl : Declarable func (compilerInit true) := declarable_first rfl (by decide) (by decide)
  have hparams : ParamsDefined true 1 [.func func] func.args _ :=
    ⟨func, _, [], ⟨_, _, _, ⟨[], [], rfl, rfl⟩,
      hdecl.define rfl (by decide) (hashmapPut_new 0 id _ _ _), rfl⟩, rfl, rfl⟩
  have hnodup := ((laid_params hparams).aliasFree_iff.mp (hfree _ (.params hparams))).1
  simp [func] at hnodup

end PhantomShell
