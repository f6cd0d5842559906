import Syllog.Ast
/-!
# Validate — agents, pipelines and safety bounds

`validate.rs` of `syllog-parser`.  The first property of a name counts here; a function returns what the source pushes.
-/
namespace Syllog
namespace Validate

open Hir Ast

def error (file code message : String) (span : Span) : Diagnostic := ⟨code, .error, message, file, span⟩

def property (fields : List Property) (name : String) : Option Property := fields.find? fun field => field.name = name

def isNonemptyString (e : Expr) : Bool :=
  match e.kind with
  | .literal (.string value) => value ≠ ""
  | _                        => false

inductive ProviderCallStatus where
  | notCall
  | malformed
  | valid (hasModel : Bool)
deriving DecidableEq

def argumentName : CallArgument → Option String
  | .mk name _ _ => name

def argumentValue : CallArgument → Expr
  | .mk _ value _ => value

def isName : ExprKind → Bool
  | .literal (.identifier _) | .path _ => true
  | _ => false

def providerCallStatus : ExprKind → ProviderCallStatus
  | .call callee arguments =>
    if !isName callee.kind || arguments.any fun argument => (argumentName argument).isNone then .malformed
    else if ¬(arguments.filterMap argumentName).Nodup then .malformed
    else
      match arguments.find? fun argument => argumentName argument = some "model" with
      | some model => if isNonemptyString (argumentValue model) then .valid true else .malformed
      | none       => .valid false
  | _ => .notCall

def isFallbackEntry (e : Expr) : Bool := isNonemptyString e || providerCallStatus e.kind = .valid true

/-- A required property, and the report where it is missing. -/
def requiredProperty (file kind declaration : String) (span : Span) (fields : List Property) (name : String) :
    Option Property × List Diagnostic :=
  match property fields name with
  | some found => (some found, [])
  | none       => (none, [error file "SYL1002" s!"{kind} '{declaration}' is missing required property '{name}'" span])

/-- The names before are in `seen`. -/
def duplicatesFrom (file : String) : List String → List Property → List Diagnostic
  | _, []               => []
  | seen, field :: rest =>
    if field.name ∈ seen then
      error file "SYL1001" s!"duplicate property '{field.name}'" field.span :: duplicatesFrom file seen rest
    else duplicatesFrom file (field.name :: seen) rest

def duplicateProperties (file : String) (fields : List Property) : List Diagnostic := duplicatesFrom file [] fields

def validateTopLevelModel (file : String) (agent : AgentNode) : List Diagnostic :=
  let (model, missing) := requiredProperty file "agent" agent.name agent.span agent.fields "model"
  missing ++
    match model with
    | some model =>
      if isNonemptyString model.value then []
      else [error file "SYL1201" "agent 'model' must be a non-empty string" model.value.span]
    | none => []

def validateProvider (file : String) (agent : AgentNode) (provider : Property) : List Diagnostic :=
  if isNonemptyString provider.value then validateTopLevelModel file agent
  else
    match providerCallStatus provider.value.kind with
    | .valid true  => []
    | .valid false => validateTopLevelModel file agent
    | _ =>
      [error file "SYL1201"
        "provider must be a non-empty route string or a provider call with named arguments and a non-empty string model"
        provider.span]

def validateFallback (file : String) (fallback : Property) : List Diagnostic :=
  match fallback.value.kind with
  | .array entries =>
    (entries.filter fun entry => !isFallbackEntry entry).map fun entry =>
      error file "SYL1202"
        "fallback entry must be a non-empty route string or a provider call with a named string 'model' argument" entry.span
  | _ => [error file "SYL1202" "fallback must be an array of provider definitions" fallback.value.span]

def validateAgent (file : String) (agent : AgentNode) : List Diagnostic :=
  let (provider, missing) := requiredProperty file "agent" agent.name agent.span agent.fields "provider"
  let (_, missingWindow) := requiredProperty file "agent" agent.name agent.span agent.fields "context_window"
  duplicateProperties file agent.fields ++ missing ++ missingWindow ++
    (match provider with
      | some provider => validateProvider file agent provider
      | none          => []) ++
    match property agent.fields "fallback" with
    | some fallback => validateFallback file fallback
    | none          => []

/-- The name an expression refers to an agent by. -/
def referenceName : ExprKind → Option String
  | .literal (.identifier name) => some name
  | .path segments              => segments.getLast?
  | _                           => none

def validateAgentReference (file : String) (reference : Property) (agents : List String) : List Diagnostic :=
  match referenceName reference.value.kind with
  | some name =>
    if name ∈ agents then []
    else [error file "SYL1101" s!"pipeline references unknown agent '{name}'" reference.value.span]
  | none => [error file "SYL1101" "pipeline 'agent' must reference a declared agent by name" reference.value.span]

def validateItem (file : String) (agents : List String) : Item → List Diagnostic
  | .agent agent       => validateAgent file agent
  | .pipeline pipeline =>
    let (reference, missing) := requiredProperty file "pipeline" pipeline.name pipeline.span pipeline.fields "agent"
    duplicateProperties file pipeline.fields ++ missing ++
      match reference with
      | some reference => validateAgentReference file reference agents
      | none           => []
  | .safetyBound bound =>
    duplicateProperties file bound.fields ++
      if (property bound.fields "require").isNone && (property bound.fields "policy").isNone then
        [error file "SYL1002" "safety_bound requires a 'require' or 'policy' property" bound.span]
      else []
  | _ => []

def agentNames (ast : SourceFile) : List String :=
  ast.items.filterMap fun item =>
    match item with
    | .agent agent => some agent.name
    | _            => none

def validate (file : String) (ast : SourceFile) : List Diagnostic := ast.items.flatMap (validateItem file (agentNames ast))

/-! ## What passes -/

section
variable {file : String}

theorem duplicatesFrom_eq_nil {seen : List String} {fields : List Property} :
    duplicatesFrom file seen fields = [] ↔ (fields.map (·.name)).Nodup ∧ ∀ field ∈ fields, field.name ∉ seen := by
  induction fields generalizing seen with
  | nil => simp [duplicatesFrom]
  | cons field rest ih =>
    rw [duplicatesFrom]
    split_ifs with hseen
    · exact ⟨fun h => (by cases h), fun h => absurd hseen (h.2 field List.mem_cons_self)⟩
    · rw [ih, List.map_cons, List.nodup_cons, List.forall_mem_cons]
      constructor
      · intro h
        obtain ⟨hnodup, hrest⟩ := h
        refine ⟨⟨fun hmem => ?_, hnodup⟩, hseen, fun other hother hmem => hrest other hother (List.mem_cons_of_mem _ hmem)⟩
        obtain ⟨other, hother, hname⟩ := List.mem_map.mp hmem
        exact hrest other hother (hname ▸ List.mem_cons_self)
      · intro h
        obtain ⟨⟨hmem, hnodup⟩, -, hrest⟩ := h
        refine ⟨hnodup, fun other hother hname => ?_⟩
        rcases List.mem_cons.mp hname with hname | hname
        · exact hmem (hname ▸ List.mem_map_of_mem hother)
        · exact hrest other hother hname

theorem duplicateProperties_eq_nil {fields : List Property} :
    duplicateProperties file fields = [] ↔ (fields.map (·.name)).Nodup := by
  simp [duplicateProperties, duplicatesFrom_eq_nil]

/-- The property is there, as a text that is not empty. -/
def Given (fields : List Property) (name : String) : Prop :=
  ∃ field, property fields name = some field ∧ isNonemptyString field.value = true

/-- A call of a provider by name: its arguments are named, each name once, and the model, where it is one of them, is a text. -/
structure Calls (callee : Expr) (arguments : List CallArgument) (model : Option Expr) : Prop where
  named : isName callee.kind = true
  all_named : ∀ argument ∈ arguments, (argumentName argument).isSome = true
  nodup : (arguments.filterMap argumentName).Nodup
  model_eq : model = (arguments.find? fun argument => argumentName argument = some "model").map argumentValue
  text : ∀ e ∈ model, isNonemptyString e = true

def ProviderCall (kind : ExprKind) (model : Option Expr) : Prop :=
  ∃ callee arguments, kind = .call callee arguments ∧ Calls callee arguments model

theorem all_named_iff {callee : Expr} {arguments : List CallArgument} :
    (!isName callee.kind || arguments.any fun argument => (argumentName argument).isNone) = false ↔
      isName callee.kind = true ∧ ∀ argument ∈ arguments, (argumentName argument).isSome = true := by
  rw [Bool.or_eq_false_iff, Bool.not_eq_false', List.any_eq_false]
  refine and_congr_right fun _ => forall₂_congr fun argument _ => ?_
  cases argumentName argument <;> simp

theorem providerCallStatus_valid {kind : ExprKind} {hasModel : Bool} :
    providerCallStatus kind = .valid hasModel ↔ ∃ model, ProviderCall kind model ∧ model.isSome = hasModel := by
  constructor
  · intro h
    cases kind with
    | call callee arguments =>
      rw [providerCallStatus] at h
      by_cases hnamed : (!isName callee.kind || arguments.any fun argument => (argumentName argument).isNone) = true
      · rw [if_pos hnamed] at h
        cases h
      · rw [if_neg hnamed] at h
        obtain ⟨hname, hall⟩ := all_named_iff.mp (Bool.eq_false_iff.mpr hnamed)
        by_cases hnodup : (arguments.filterMap argumentName).Nodup
        · rw [if_neg (not_not.mpr hnodup)] at h
          cases hmodel : arguments.find? fun argument => argumentName argument = some "model" with
          | none =>
            simp only [hmodel, ProviderCallStatus.valid.injEq] at h
            exact ⟨none, ⟨callee, arguments, rfl, hname, hall, hnodup, by rw [hmodel]; rfl, by simp⟩, h⟩
          | some model =>
            by_cases htext : isNonemptyString (argumentValue model) = true
            · simp only [hmodel, htext, if_true, ProviderCallStatus.valid.injEq] at h
              exact ⟨some (argumentValue model), ⟨callee, arguments, rfl, hname, hall, hnodup, by rw [hmodel]; rfl, by simpa⟩, h⟩
            · simp [hmodel, htext] at h
        · rw [if_pos hnodup] at h
          cases h
    | _ => simp [providerCallStatus] at h
  · intro h
    obtain ⟨model, ⟨callee, arguments, rfl, hcalls⟩, rfl⟩ := h
    have hmodel := hcalls.model_eq
    rw [providerCallStatus, if_neg (by rw [all_named_iff.mpr ⟨hcalls.named, hcalls.all_named⟩]; simp),
      if_neg (not_not.mpr hcalls.nodup)]
    cases hfind : arguments.find? fun argument => argumentName argument = some "model" with
    | none =>
      rw [hfind] at hmodel
      subst hmodel
      rfl
    | some argument =>
      rw [hfind] at hmodel
      subst hmodel
      simp only [if_pos (hcalls.text _ rfl)]
      rfl

theorem not_call_of_text {e : Expr} (h : isNonemptyString e = true) {model : Option Expr} : ¬ProviderCall e.kind model := by
  intro hcall
  obtain ⟨callee, arguments, hkind, -⟩ := hcall
  rw [isNonemptyString, hkind] at h
  cases h

theorem isFallbackEntry_iff {entry : Expr} :
    isFallbackEntry entry = true ↔ isNonemptyString entry = true ∨ ∃ model, ProviderCall entry.kind (some model) := by
  rw [isFallbackEntry, Bool.or_eq_true, decide_eq_true_eq, providerCallStatus_valid]
  refine or_congr_right ⟨fun h => ?_, fun h => ?_⟩
  · obtain ⟨model, hcall, hsome⟩ := h
    obtain ⟨e, rfl⟩ := Option.isSome_iff_exists.mp hsome
    exact ⟨e, hcall⟩
  · obtain ⟨model, hcall⟩ := h
    exact ⟨some model, hcall, rfl⟩

/-- A route with a model beside it, or a call that names its model or has one beside it. -/
def Provided (fields : List Property) : Prop :=
  ∃ provider, property fields "provider" = some provider ∧
    ((isNonemptyString provider.value = true ∧ Given fields "model") ∨
      ∃ model, ProviderCall provider.value.kind model ∧ (model = none → Given fields "model"))

/-- The fallback, where there is one, is an array of routes and of calls that name their models. -/
def FallsBack (fields : List Property) : Prop :=
  ∀ fallback ∈ property fields "fallback", ∃ entries, fallback.value.kind = .array entries ∧
    ∀ entry ∈ entries, isNonemptyString entry = true ∨ ∃ model, ProviderCall entry.kind (some model)

/-- What is asked of an item, in a file that declares these agents. -/
def Valid (agents : List String) : Item → Prop
  | .agent agent =>
    (agent.fields.map (·.name)).Nodup ∧ Provided agent.fields ∧ (property agent.fields "context_window").isSome = true ∧
      FallsBack agent.fields
  | .pipeline pipeline =>
    (pipeline.fields.map (·.name)).Nodup ∧
      ∃ reference, property pipeline.fields "agent" = some reference ∧
        ∃ name ∈ agents, referenceName reference.value.kind = some name
  | .safetyBound bound =>
    (bound.fields.map (·.name)).Nodup ∧
      ((property bound.fields "require").isSome = true ∨ (property bound.fields "policy").isSome = true)
  | _ => True

theorem validateTopLevelModel_eq_nil {agent : AgentNode} :
    validateTopLevelModel file agent = [] ↔ Given agent.fields "model" := by
  rw [validateTopLevelModel, Given]
  simp only [requiredProperty]
  cases hmodel : property agent.fields "model" with
  | none => simp
  | some model => by_cases htext : isNonemptyString model.value = true <;> simp [htext]

theorem validateFallback_eq_nil {fallback : Property} :
    validateFallback file fallback = [] ↔ ∃ entries, fallback.value.kind = .array entries ∧
      ∀ entry ∈ entries, isNonemptyString entry = true ∨ ∃ model, ProviderCall entry.kind (some model) := by
  rw [validateFallback]
  cases hkind : fallback.value.kind with
  | array entries =>
    simp only [List.map_eq_nil_iff, List.filter_eq_nil_iff, Bool.not_eq_true', Bool.not_eq_false, isFallbackEntry_iff]
    refine ⟨fun h => ⟨entries, rfl, h⟩, fun h => ?_⟩
    obtain ⟨_, heq, h⟩ := h
    cases heq
    exact h
  | _ => simp

theorem validateProvider_eq_nil {agent : AgentNode} {provider : Property} :
    validateProvider file agent provider = [] ↔
      (isNonemptyString provider.value = true ∧ Given agent.fields "model") ∨
        ∃ model, ProviderCall provider.value.kind model ∧ (model = none → Given agent.fields "model") := by
  rw [validateProvider]
  by_cases htext : isNonemptyString provider.value = true
  · rw [if_pos htext, validateTopLevelModel_eq_nil]
    refine ⟨fun h => .inl ⟨htext, h⟩, fun h => ?_⟩
    rcases h with h | h
    · exact h.2
    · obtain ⟨model, hcall, -⟩ := h
      exact absurd hcall (not_call_of_text htext)
  · rw [if_neg htext]
    have hcalls := @providerCallStatus_valid provider.value.kind
    cases hstatus : providerCallStatus provider.value.kind with
    | valid hasModel =>
      obtain ⟨model, hcall, hsome⟩ := hcalls.mp hstatus
      cases hasModel with
      | true => exact iff_of_true rfl (.inr ⟨model, hcall, fun hnone => by rw [hnone] at hsome; cases hsome⟩)
      | false =>
        change validateTopLevelModel file agent = [] ↔ _
        rw [validateTopLevelModel_eq_nil]
        refine ⟨fun h => .inr ⟨model, hcall, fun _ => h⟩, fun h => ?_⟩
        rcases h with h | h
        · exact h.2
        · obtain ⟨model', hcall', hgiven⟩ := h
          have hvalid := hcalls.mpr ⟨model', hcall', rfl⟩
          rw [hstatus, ProviderCallStatus.valid.injEq] at hvalid
          exact hgiven (Option.isSome_eq_false_iff.mp hvalid.symm |> Option.isNone_iff_eq_none.mp)
    | _ =>
      refine ⟨fun h => (by simp at h), fun h => ?_⟩
      rcases h with h | h
      · exact absurd h.1 htext
      · obtain ⟨model, hcall, -⟩ := h
        have hvalid := hcalls.mpr ⟨model, hcall, rfl⟩
        rw [hstatus] at hvalid
        cases hvalid

theorem validateAgent_eq_nil {agent : AgentNode} :
    validateAgent file agent = [] ↔ (agent.fields.map (·.name)).Nodup ∧ Provided agent.fields ∧
      (property agent.fields "context_window").isSome = true ∧ FallsBack agent.fields := by
  have hfalls : FallsBack agent.fields ↔ ∀ fallback ∈ property agent.fields "fallback", validateFallback file fallback = [] :=
    forall₂_congr fun _ _ => validateFallback_eq_nil.symm
  rw [validateAgent, Provided, hfalls]
  cases hprovider : property agent.fields "provider" with
  | none => simp [requiredProperty, hprovider]
  | some provider =>
    cases hwindow : property agent.fields "context_window" with
    | none => simp [requiredProperty, hprovider, hwindow]
    | some window =>
      cases property agent.fields "fallback" with
      | none => simp [requiredProperty, hprovider, hwindow, duplicateProperties_eq_nil, validateProvider_eq_nil]
      | some fallback => simp [requiredProperty, hprovider, hwindow, duplicateProperties_eq_nil, validateProvider_eq_nil]

theorem validateAgentReference_eq_nil {reference : Property} {agents : List String} :
    validateAgentReference file reference agents = [] ↔ ∃ name ∈ agents, referenceName reference.value.kind = some name := by
  rw [validateAgentReference]
  cases hname : referenceName reference.value.kind with
  | none => simp
  | some name => by_cases hmem : name ∈ agents <;> simp [hmem]

theorem validateItem_eq_nil {agents : List String} {item : Item} : validateItem file agents item = [] ↔ Valid agents item := by
  cases item with
  | agent agent => exact validateAgent_eq_nil
  | pipeline pipeline =>
    rw [validateItem, Valid]
    cases hreference : property pipeline.fields "agent" with
    | none => simp [requiredProperty, hreference]
    | some reference => simp [requiredProperty, hreference, duplicateProperties_eq_nil, validateAgentReference_eq_nil]
  | safetyBound bound =>
    rw [validateItem, Valid, List.append_eq_nil_iff, duplicateProperties_eq_nil]
    cases property bound.fields "require" <;> cases property bound.fields "policy" <;> simp
  | struct => exact iff_of_true rfl trivial
  | enum => exact iff_of_true rfl trivial
  | function => exact iff_of_true rfl trivial
  | state => exact iff_of_true rfl trivial

end

/-- **What validation asks**: it reports nothing exactly of a file whose agents, pipelines and safety bounds are as they should. -/
theorem validate_silent_iff (file : String) (ast : SourceFile) :
    validate file ast = [] ↔ ∀ item ∈ ast.items, Valid (agentNames ast) item := by
  rw [validate, List.flatMap_eq_nil_iff]
  exact forall₂_congr fun item _ => validateItem_eq_nil

/-! ## Errors -/

/-- Errors of this file. -/
def Reports (file : String) (diagnostics : List Diagnostic) : Prop := ∀ d ∈ diagnostics, d.file = file ∧ d.severity = .error

section
variable {file : String}

theorem reports_nil : Reports file [] := fun d hd => by cases hd

theorem reports_error (code message : String) (span : Span) : Reports file [error file code message span] := by
  intro d hd
  rw [List.mem_singleton.mp hd]
  exact ⟨rfl, rfl⟩

theorem Reports.append {ds ds' : List Diagnostic} (h : Reports file ds) (h' : Reports file ds') : Reports file (ds ++ ds') := by
  intro d hd
  rcases List.mem_append.mp hd with hd | hd
  · exact h d hd
  · exact h' d hd

theorem reports_duplicatesFrom (seen : List String) (fields : List Property) :
    Reports file (duplicatesFrom file seen fields) := by
  induction fields generalizing seen with
  | nil => exact reports_nil
  | cons field rest ih =>
    rw [duplicatesFrom]
    split_ifs
    · exact (reports_error _ _ _).append (ih seen)
    · exact ih _

theorem reports_required (kind declaration : String) (span : Span) (fields : List Property) (name : String) :
    Reports file (requiredProperty file kind declaration span fields name).2 := by
  rw [requiredProperty]
  cases property fields name with
  | none => exact reports_error _ _ _
  | some found => exact reports_nil

theorem reports_model (agent : AgentNode) : Reports file (validateTopLevelModel file agent) := by
  cases hmodel : property agent.fields "model" with
  | none =>
    simp only [validateTopLevelModel, requiredProperty, hmodel, List.append_nil]
    exact reports_error _ _ _
  | some model =>
    simp only [validateTopLevelModel, requiredProperty, hmodel, List.nil_append]
    split_ifs
    · exact reports_nil
    · exact reports_error _ _ _

theorem reports_provider (agent : AgentNode) (provider : Property) : Reports file (validateProvider file agent provider) := by
  rw [validateProvider]
  split_ifs
  · exact reports_model agent
  · split
    · exact reports_nil
    · exact reports_model agent
    · exact reports_error _ _ _

theorem reports_fallback (fallback : Property) : Reports file (validateFallback file fallback) := by
  rw [validateFallback]
  split
  · intro d hd
    obtain ⟨entry, -, rfl⟩ := List.mem_map.mp hd
    exact ⟨rfl, rfl⟩
  · exact reports_error _ _ _

theorem reports_agent (agent : AgentNode) : Reports file (validateAgent file agent) := by
  have hproperties : Reports file (duplicateProperties file agent.fields) := reports_duplicatesFrom [] agent.fields
  refine (((hproperties.append (reports_required _ _ _ _ _)).append (reports_required _ _ _ _ _)).append ?_).append ?_
  · cases property agent.fields "provider" with
    | none => exact reports_nil
    | some provider => exact reports_provider agent provider
  · cases property agent.fields "fallback" with
    | none => exact reports_nil
    | some fallback => exact reports_fallback fallback

theorem reports_reference (reference : Property) (agents : List String) :
    Reports file (validateAgentReference file reference agents) := by
  rw [validateAgentReference]
  split
  · split_ifs
    · exact reports_nil
    · exact reports_error _ _ _
  · exact reports_error _ _ _

theorem reports_item (agents : List String) (item : Item) : Reports file (validateItem file agents item) := by
  cases item with
  | agent agent => exact reports_agent agent
  | pipeline pipeline =>
    rw [validateItem]
    refine ((reports_duplicatesFrom _ _).append (reports_required _ _ _ _ _)).append ?_
    cases property pipeline.fields "agent" with
    | none => exact reports_nil
    | some reference => exact reports_reference reference agents
  | safetyBound bound =>
    rw [validateItem]
    refine (reports_duplicatesFrom _ _).append ?_
    split_ifs
    · exact reports_error _ _ _
    · exact reports_nil
  | _ => exact reports_nil

/-- What is reported are errors of the file. -/
theorem reports_validate (ast : SourceFile) : Reports file (validate file ast) := by
  intro d hd
  obtain ⟨item, -, hd⟩ := List.mem_flatMap.mp hd
  exact reports_item _ item d hd

end

end Validate
end Syllog
