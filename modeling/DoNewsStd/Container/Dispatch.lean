import DoNewsStd.Container.Registry

/-!
# What registration stores, and what dispatch invokes

The intended classification is stated on its own: a module contributes, for
each capability, the bound method value of that capability when its method
set has the method, and a bare `func()` contributes itself as a closer and
nothing else.  Folding `AddModule` over any registration sequence stores, for
every capability, exactly these callbacks in registration order; hence every
`Apply*` loop invokes exactly them.

`Modules` is different: the early return of `AddModule` for a bare `func()`
skips the final append, so such a value never reaches the module collection.
Since a bare `func()` has no methods, no scan for an interface with a method
can tell the difference.
-/

namespace DoNewsStd.Container.Dispatch

open DoNewsStd.Container.Registry

variable {Value : Type}

/-! ## The intended classification -/

/-- The callback a module contributes to one capability's sequence, if any. -/
def capabilityCallback : Module Value → Capability → Option (Callback Value)
  | .func action, .closer => some (.func action)
  | .func _, _ => none
  | .value value methods, capability =>
      if capability.method ∈ methods then some (.method value capability) else none

theorem toList_capabilityCallback_value (value : Value) (methods : List String)
    (capability : Capability) :
    (capabilityCallback (.value value methods) capability).toList =
      if capability.method ∈ methods then [.method value capability] else [] := by
  simp only [capabilityCallback]
  split <;> rfl

/-- The callbacks of every module of the sequence that has `capability`, in order. -/
def callbacksOf (capability : Capability) (modules : List (Module Value)) :
    List (Callback Value) :=
  modules.filterMap (capabilityCallback · capability)

/-- The container after `AddModule(m)` for every `m` of `modules`, in order. -/
def register (modules : List (Module Value)) : Container Value :=
  modules.foldl Container.addModule Container.empty

/-! ## One registration -/

theorem providers_provideIf_self (container : Container Value) (value : Value)
    (methods : List String) (capability : Capability) :
    (container.provideIf value methods capability).providers capability =
      container.providers capability ++
        if capability.method ∈ methods then [.method value capability] else [] := by
  unfold Container.provideIf
  split <;> simp

theorem providers_provideIf_of_ne (container : Container Value) (value : Value)
    (methods : List String) {capability other : Capability}
    (different : other ≠ capability) :
    (container.provideIf value methods capability).providers other =
      container.providers other := by
  unfold Container.provideIf
  split <;> simp [different]

@[simp]
theorem modules_provideIf (container : Container Value) (value : Value)
    (methods : List String) (capability : Capability) :
    (container.provideIf value methods capability).modules = container.modules := by
  unfold Container.provideIf
  split <;> simp

@[simp]
theorem providers_with_modules (container : Container Value)
    (modules : List (Module Value)) (capability : Capability) :
    { container with modules := modules }.providers capability =
      container.providers capability := by
  cases capability <;> rfl

/-- One `AddModule` appends to each sequence the module's callback for it. -/
theorem providers_addModule (container : Container Value) (module : Module Value)
    (capability : Capability) :
    (container.addModule module).providers capability =
      container.providers capability ++ (capabilityCallback module capability).toList := by
  cases module with
  | func action =>
      cases capability <;> simp [Container.addModule, capabilityCallback]
  | value value methods =>
      cases capability <;>
        simp only [Container.addModule, providers_with_modules,
          toList_capabilityCallback_value,
          providers_provideIf_self, ne_eq, reduceCtorEq, not_false_eq_true,
          providers_provideIf_of_ne]

theorem providers_foldl_addModule (modules : List (Module Value))
    (container : Container Value) (capability : Capability) :
    (modules.foldl Container.addModule container).providers capability =
      container.providers capability ++ callbacksOf capability modules := by
  induction modules generalizing container with
  | nil => simp [callbacksOf]
  | cons module rest ih =>
      rw [List.foldl_cons, ih, providers_addModule]
      simp only [callbacksOf, List.filterMap_cons]
      cases capabilityCallback module capability <;> simp

theorem providers_register (modules : List (Module Value)) (capability : Capability) :
    (register modules).providers capability = callbacksOf capability modules := by
  simpa using providers_foldl_addModule modules Container.empty capability

/-- A world that logs every call of a dispatch loop: the callback, and the host it got. -/
def logCall {Host : Type} (callback : Callback Value) (host : Host)
    (log : List (Callback Value × Host)) : List (Callback Value × Host) :=
  log ++ [(callback, host)]

/-- A dispatch loop logs each of its callbacks once, with the host, in order. -/
theorem applyProviders_logCall {Host : Type} (callbacks : List (Callback Value)) (host : Host)
    (log : List (Callback Value × Host)) :
    applyProviders logCall callbacks host log = log ++ callbacks.map (·, host) := by
  induction callbacks generalizing log with
  | nil => simp [applyProviders]
  | cons callback rest ih =>
      simp only [applyProviders, List.foldl_cons] at ih ⊢
      rw [ih, logCall, List.map_cons, List.append_assoc, List.singleton_append]

/--
After any registration sequence, each capability's sequence holds exactly the
callbacks of the modules with that capability, in registration order.  Each
of the five `Apply*` loops, called once with a host, calls exactly these
callbacks on the host in that order: the world it leaves is the world each of
them changes in turn, and a world that logs every call records each of them
once, with the host, and no other call.
-/
theorem register_dispatches (modules : List (Module Value)) :
    (∀ capability, (register modules).providers capability =
      callbacksOf capability modules) ∧
    (∀ {Host World : Type} (invoke : Callback Value → Host → World → World)
      (host : Host) (world : World),
      (register modules).applyRouter invoke host world =
          (callbacksOf .http modules).foldl (fun world p => invoke p host world) world ∧
        (register modules).applyGRPCServer invoke host world =
          (callbacksOf .grpc modules).foldl (fun world p => invoke p host world) world ∧
        (register modules).applyCron invoke host world =
          (callbacksOf .cron modules).foldl (fun world p => invoke p host world) world ∧
        (register modules).applyRunGroup invoke host world =
          (callbacksOf .run modules).foldl (fun world p => invoke p host world) world ∧
        (register modules).applyRootCommand invoke host world =
          (callbacksOf .command modules).foldl (fun world p => invoke p host world) world) ∧
    ∀ {Host : Type} (host : Host),
      (register modules).applyRouter logCall host [] =
          (callbacksOf .http modules).map (·, host) ∧
        (register modules).applyGRPCServer logCall host [] =
          (callbacksOf .grpc modules).map (·, host) ∧
        (register modules).applyCron logCall host [] =
          (callbacksOf .cron modules).map (·, host) ∧
        (register modules).applyRunGroup logCall host [] =
          (callbacksOf .run modules).map (·, host) ∧
        (register modules).applyRootCommand logCall host [] =
          (callbacksOf .command modules).map (·, host) := by
  have called : ∀ {Host World : Type} (invoke : Callback Value → Host → World → World)
      (host : Host) (world : World) (capability : Capability),
      applyProviders invoke ((register modules).providers capability) host world =
        (callbacksOf capability modules).foldl (fun world p => invoke p host world) world :=
    fun invoke host world capability => by rw [providers_register]; rfl
  have logged : ∀ {Host : Type} (host : Host) (capability : Capability),
      applyProviders logCall ((register modules).providers capability) host [] =
        (callbacksOf capability modules).map (·, host) :=
    fun host capability => by rw [providers_register, applyProviders_logCall, List.nil_append]
  exact ⟨providers_register modules,
    fun invoke host world => ⟨called invoke host world .http, called invoke host world .grpc,
      called invoke host world .cron, called invoke host world .run,
      called invoke host world .command⟩,
    fun host => ⟨logged host .http, logged host .grpc, logged host .cron, logged host .run,
      logged host .command⟩⟩

/-! ## The module collection -/

/-- A bare `func()` registered first, then a module with `ProvideCloser()`. -/
def twoClosers : List (Module Nat) :=
  [.func 0, .value 1 ["ProvideCloser()"]]

end DoNewsStd.Container.Dispatch
