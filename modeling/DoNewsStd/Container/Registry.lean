import Mathlib.Data.List.Basic

/-!
# The module container

`Container` collects modules and classifies each of them by the capability
interfaces it satisfies.  `AddModule` tests a module against the six
single-method interfaces `HttpProvider`, `GrpcProvider`, `CronProvider`,
`RunProvider`, `CommandProvider` and `CloserProvider`, and appends the bound
method value of every interface it satisfies to that interface's sequence.
A bare `func()` is registered as a closer and nothing else.

A Go value is opaque here: a module is its identity together with the method
set of its dynamic type, which is all a type assertion can observe.  A stored
callback is the method value `p.ProvideX` bound to its receiver, or the bare
`func()` itself.  Calling a callback is left abstract: the `Apply*` loops are
modelled over any `invoke` that says how one call changes the world.
-/

namespace DoNewsStd.Container.Registry

/-- The six capability interfaces of package container. -/
inductive Capability where
  | http
  | grpc
  | cron
  | run
  | command
  | closer
  deriving DecidableEq, Repr

/-- The single method of each capability interface, by name and signature. -/
def Capability.method : Capability → String
  | .http => "ProvideHttp(*mux.Router)"
  | .grpc => "ProvideGrpc(*grpc.Server)"
  | .cron => "ProvideCron(*cron.Cron)"
  | .run => "ProvideRunGroup(*run.Group)"
  | .command => "ProvideCommand(*cobra.Command)"
  | .closer => "ProvideCloser()"

/--
A value handed to `AddModule`: a bare `func()`, for which the assertion
`module.(func())` succeeds, or any other value with the method set of its
dynamic type.
-/
inductive Module (Value : Type) where
  | func (action : Value)
  | value (value : Value) (methods : List String)
  deriving DecidableEq, Repr

/--
A callback stored by `AddModule`: the method value `p.ProvideX` of a
capability bound to its receiver, or a bare `func()` registered as a closer.
-/
inductive Callback (Value : Type) where
  | method (receiver : Value) (capability : Capability)
  | func (action : Value)
  deriving DecidableEq, Repr

variable {Value : Type}

/-- The method set of a module's dynamic type; a bare `func()` has none. -/
def Module.methods : Module Value → List String
  | .func _ => []
  | .value _ methods => methods

/-- `Container` holds all modules registered. -/
structure Container (Value : Type) where
  httpProviders : List (Callback Value)
  grpcProviders : List (Callback Value)
  closerProviders : List (Callback Value)
  runProviders : List (Callback Value)
  modules : List (Module Value)
  cronProviders : List (Callback Value)
  commandProviders : List (Callback Value)
  deriving DecidableEq, Repr

namespace Container

/-- The zero `Container`: every sequence is nil. -/
def empty : Container Value :=
  ⟨[], [], [], [], [], [], []⟩

/-- The callback sequence of one capability. -/
def providers (container : Container Value) : Capability → List (Callback Value)
  | .http => container.httpProviders
  | .grpc => container.grpcProviders
  | .cron => container.cronProviders
  | .run => container.runProviders
  | .command => container.commandProviders
  | .closer => container.closerProviders

@[simp]
theorem providers_empty (capability : Capability) :
    (empty : Container Value).providers capability = [] := by
  cases capability <;> rfl

/-- `c.xProviders = append(c.xProviders, callback)` for the capability `x`. -/
def appendProvider (container : Container Value) (capability : Capability)
    (callback : Callback Value) : Container Value :=
  match capability with
  | .http => { container with httpProviders := container.httpProviders ++ [callback] }
  | .grpc => { container with grpcProviders := container.grpcProviders ++ [callback] }
  | .cron => { container with cronProviders := container.cronProviders ++ [callback] }
  | .run => { container with runProviders := container.runProviders ++ [callback] }
  | .command =>
      { container with commandProviders := container.commandProviders ++ [callback] }
  | .closer =>
      { container with closerProviders := container.closerProviders ++ [callback] }

@[simp]
theorem providers_appendProvider (container : Container Value)
    (capability other : Capability) (callback : Callback Value) :
    (container.appendProvider capability callback).providers other =
      if other = capability then container.providers other ++ [callback]
      else container.providers other := by
  cases capability <;> cases other <;> rfl

@[simp]
theorem modules_appendProvider (container : Container Value)
    (capability : Capability) (callback : Callback Value) :
    (container.appendProvider capability callback).modules = container.modules := by
  cases capability <;> rfl

/--
One test `if p, ok := module.(X); ok { c.xProviders = append(c.xProviders,
p.ProvideX) }` of `AddModule`.
-/
def provideIf (container : Container Value) (value : Value) (methods : List String)
    (capability : Capability) : Container Value :=
  if capability.method ∈ methods then
    container.appendProvider capability (.method value capability)
  else container

/-- `AddModule`: classify `module` by capability and remember it. -/
def addModule (container : Container Value) : Module Value → Container Value
  | .func action => container.appendProvider .closer (.func action)
  | .value value methods =>
      let container := container.provideIf value methods .http
      let container := container.provideIf value methods .grpc
      let container := container.provideIf value methods .cron
      let container := container.provideIf value methods .run
      let container := container.provideIf value methods .command
      let container := container.provideIf value methods .closer
      { container with modules := container.modules ++ [.value value methods] }

end Container

/-! ## Dispatch loops -/

section Dispatch

variable {Host World : Type}

/--
`for _, p := range providers { p(host) }`, where calling `p` with `host`
changes the world by `invoke p host`.
-/
def applyProviders (invoke : Callback Value → Host → World → World)
    (providers : List (Callback Value)) (host : Host) (world : World) : World :=
  providers.foldl (fun world provider => invoke provider host world) world

/-- `ApplyRouter` introduces the router to every `HttpProvider`. -/
def Container.applyRouter (container : Container Value)
    (invoke : Callback Value → Host → World → World) (router : Host) :
    World → World :=
  applyProviders invoke container.httpProviders router

/-- `ApplyGRPCServer` introduces the server to every `GrpcProvider`. -/
def Container.applyGRPCServer (container : Container Value)
    (invoke : Callback Value → Host → World → World) (server : Host) :
    World → World :=
  applyProviders invoke container.grpcProviders server

/-- `ApplyRunGroup` introduces the run group to every `RunProvider`. -/
def Container.applyRunGroup (container : Container Value)
    (invoke : Callback Value → Host → World → World) (group : Host) :
    World → World :=
  applyProviders invoke container.runProviders group

/-- `ApplyCron` introduces the crontab to every `CronProvider`. -/
def Container.applyCron (container : Container Value)
    (invoke : Callback Value → Host → World → World) (crontab : Host) :
    World → World :=
  applyProviders invoke container.cronProviders crontab

/-- `ApplyRootCommand` introduces the root command to every `CommandProvider`. -/
def Container.applyRootCommand (container : Container Value)
    (invoke : Callback Value → Host → World → World) (command : Host) :
    World → World :=
  applyProviders invoke container.commandProviders command

end Dispatch

end DoNewsStd.Container.Registry
