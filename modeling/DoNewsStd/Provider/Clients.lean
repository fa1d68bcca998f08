import Mathlib.Data.List.Basic

/-!
# The etcd and redis client builders

Packages `otetcd` and `otredis` read named configuration entries under one
key of the configuration (`etcd`, `redis`) and hand a builder to a memoizing
factory; `Make(name)` runs the builder for `name`.  This module models the
builders and the providers around them: the lookup and its error, the
fallback of `otetcd` for `default`, the tracing options or hook, the
interceptor, and the default configurations the packages export.

The factory itself (`di.Factory`, `async.Factory`) is not in this
repository; its `Make` returns what the builder returns, memoized by name, so
the builder stands for it.  A client is represented by what it is created
from: `redis.NewUniversalClient` by its options and the hooks added to it,
`clientv3.New` by the `clientv3.Config` it receives, or by `nil` when it
fails.  Whether `clientv3.New` fails depends on the cluster as well as on the
configuration, so it is a parameter of the model; the builder drops its
error, and `Make` then returns a `nil` client with no error.  Values Go passes
by pointer or interface (a tracer, a TLS configuration, a context, a dial
option read from the configuration) are handles compared by identity; `none`
is `nil`.

The two builders differ.  `otetcd` falls back for `default` to `ETCD_ADDR`
or `127.0.0.1:6379`, while the default it exports is `127.0.0.1:2379`;
`otredis` has no fallback.  `otetcd` adds the tracing dial options before the
interceptor runs, so the interceptor sees them; `otredis` runs the
interceptor first and builds its tracing hook from the intercepted options.
-/

namespace DoNewsStd.Provider.Clients

/-! ## Configuration -/

/-- The text of `fmt.Errorf("<kind> configuration %s not valid", name)`. -/
def notValid (kind name : String) : String :=
  kind ++ " configuration " ++ name ++ " not valid"

/-- `contract.ExportedConfig`: the data maps a top-level key to named entries. -/
structure ExportedConfig (Entry : Type) where
  name : String
  data : List (String × List (String × Entry))
  comment : String

/-- A `contract.ConfigAccessor`, as `Unmarshal(key, &entries)` reads it. -/
structure ConfigAccessor (Entry : Type) where
  unmarshal : String → Except String (List (String × Entry))

variable {Entry : Type}

/--
`err = p.Conf.Unmarshal(key, &dbConfs)`, then
`level.Warn(p.Logger).Log("err", err)` on an error: the entries, `nil` after
an error, and the key-value pairs logged.
-/
def unmarshalConfs (conf : ConfigAccessor Entry) (key : String) :
    List (String × Entry) × List (String × String) :=
  match conf.unmarshal key with
  | .ok dbConfs => (dbConfs, [])
  | .error err => ([], [("err", err)])

/-! ## Package otetcd -/

/-- `config.Duration`. -/
structure Duration where
  duration : Int := 0
  deriving DecidableEq, Repr

/-- `duration` unwraps a `config.Duration` into a `time.Duration`. -/
def duration (d : Duration) : Int :=
  d.duration

/--
A `grpc.DialOption`: one read from the configuration entry, or the tracing
options `grpc.WithUnaryInterceptor(otgrpc.OpenTracingClientInterceptor(tracer))`
and `grpc.WithStreamInterceptor(otgrpc.OpenTracingStreamClientInterceptor(tracer))`.
-/
inductive DialOption where
  | configured (handle : Nat)
  | unaryTracing (tracer : Nat)
  | streamTracing (tracer : Nat)
  deriving DecidableEq, Repr

/-- `Option`, an entry of the `etcd` configuration; the defaults are Go's zero values. -/
structure EtcdOption where
  endpoints : List String := []
  autoSyncInterval : Duration := {}
  dialTimeout : Duration := {}
  dialKeepAliveTime : Duration := {}
  dialKeepAliveTimeout : Duration := {}
  maxCallSendMsgSize : Int := 0
  maxCallRecvMsgSize : Int := 0
  tls : Option Nat := none
  username : String := ""
  password : String := ""
  rejectOldCluster : Bool := false
  dialOptions : List DialOption := []
  context : Option Nat := none
  logConfig : Option Nat := none
  permitWithoutStream : Bool := false
  deriving DecidableEq, Repr

/-- `clientv3.Config`, the configuration of an etcd client. -/
structure EtcdConfig where
  endpoints : List String
  autoSyncInterval : Int
  dialTimeout : Int
  dialKeepAliveTime : Int
  dialKeepAliveTimeout : Int
  maxCallSendMsgSize : Int
  maxCallRecvMsgSize : Int
  tls : Option Nat
  username : String
  password : String
  rejectOldCluster : Bool
  dialOptions : List DialOption
  context : Option Nat
  logConfig : Option Nat
  permitWithoutStream : Bool
  deriving DecidableEq, Repr

/--
`factoryIn`, the injection parameter of `provideFactory`: the configuration,
and the optional `EtcdConfigInterceptor` and `opentracing.Tracer`.
-/
structure FactoryIn where
  conf : ConfigAccessor EtcdOption
  interceptor : Option (String → EtcdConfig → EtcdConfig)
  tracer : Option Nat

/--
`FactoryOut`: the `Maker`, whose `Make` is the builder's.  The assertion
`client.(*clientv3.Client)` in `Make` succeeds on a `nil` client, so `Make`
returns what the builder returns.
-/
structure FactoryOut where
  make : String → Except String (Option EtcdConfig)

/--
The entry the builder uses for `name`: the configured one, and for `default`
without one, the address in `ETCD_ADDR` or `127.0.0.1:6379`.  `getenv` is
`os.Getenv`.
-/
def etcdEntry (getenv : String → String) (dbConfs : List (String × EtcdOption))
    (name : String) : Except String EtcdOption :=
  match dbConfs.lookup name with
  | some conf => .ok conf
  | none =>
      if name ≠ "default" then .error (notValid "etcd" name)
      else if getenv "ETCD_ADDR" ≠ "" then .ok { endpoints := [getenv "ETCD_ADDR"] }
      else .ok { endpoints := ["127.0.0.1:6379"] }

/-- `co := clientv3.Config{...}`, copied field by field from the entry. -/
def clientConfig (conf : EtcdOption) : EtcdConfig where
  endpoints := conf.endpoints
  autoSyncInterval := duration conf.autoSyncInterval
  dialTimeout := duration conf.dialTimeout
  dialKeepAliveTime := duration conf.dialKeepAliveTime
  dialKeepAliveTimeout := duration conf.dialKeepAliveTimeout
  maxCallSendMsgSize := conf.maxCallSendMsgSize
  maxCallRecvMsgSize := conf.maxCallRecvMsgSize
  tls := conf.tls
  username := conf.username
  password := conf.password
  rejectOldCluster := conf.rejectOldCluster
  dialOptions := conf.dialOptions
  context := conf.context
  logConfig := conf.logConfig
  permitWithoutStream := conf.permitWithoutStream

/-- The tracing dial options appended when a tracer is present. -/
def withTracing (tracer : Option Nat) (co : EtcdConfig) : EtcdConfig :=
  match tracer with
  | some tracer =>
      { co with dialOptions := co.dialOptions ++ [.unaryTracing tracer, .streamTracing tracer] }
  | none => co

/-- `p.Interceptor(name, &co)` when an interceptor is present. -/
def intercept {Config : Type} (interceptor : Option (String → Config → Config))
    (name : String) (co : Config) : Config :=
  match interceptor with
  | some interceptor => interceptor name co
  | none => co

/--
`client, _ := clientv3.New(co)`: the client, `nil` when `New` fails.
`newError` is the error `clientv3.New` returns for a configuration, if any;
it is dropped.
-/
def newEtcdClient (newError : EtcdConfig → Option String) (co : EtcdConfig) :
    Option EtcdConfig :=
  match newError co with
  | some _ => none
  | none => some co

/--
The builder `provideFactory` hands to `di.NewFactory`: the client it creates
for `name`, with no error once the entry resolves.
-/
def etcdBuilder (getenv : String → String) (newError : EtcdConfig → Option String)
    (p : FactoryIn) (dbConfs : List (String × EtcdOption)) (name : String) :
    Except String (Option EtcdConfig) :=
  (etcdEntry getenv dbConfs name).map fun conf =>
    newEtcdClient newError (intercept p.interceptor name (withTracing p.tracer (clientConfig conf)))

/-- `provideFactory`: the factory, and the key-value pairs it logs. -/
def provideFactory (getenv : String → String) (newError : EtcdConfig → Option String)
    (p : FactoryIn) : FactoryOut × List (String × String) :=
  let (dbConfs, warnings) := unmarshalConfs p.conf "etcd"
  (⟨etcdBuilder getenv newError p dbConfs⟩, warnings)

/-- `provideDefaultClient`: `maker.Make("default")`. -/
def provideDefaultClient (maker : FactoryOut) : Except String (Option EtcdConfig) :=
  maker.make "default"

/-- `provideConfig`: the exported configuration of package otetcd. -/
def provideConfig : List (ExportedConfig EtcdOption) :=
  [⟨"otetcd", [("etcd", [("default", { endpoints := ["127.0.0.1:2379"] })])],
    "The configuration for ETCD."⟩]

/-! ## Package otredis -/

/-- `redis.UniversalOptions`, with the fields the exported configuration names. -/
structure UniversalOptions where
  addrs : List String := []
  db : Int := 0
  username : String := ""
  password : String := ""
  sentinelPassword : String := ""
  maxRetries : Int := 0
  minRetryBackoff : Int := 0
  maxRetryBackoff : Int := 0
  dialTimeout : Int := 0
  readTimeout : Int := 0
  writeTimeout : Int := 0
  poolSize : Int := 0
  minIdleConns : Int := 0
  maxConnAge : Int := 0
  poolTimeout : Int := 0
  idleTimeout : Int := 0
  idleCheckFrequency : Int := 0
  maxRedirects : Int := 0
  readOnly : Bool := false
  routeByLatency : Bool := false
  routeRandomly : Bool := false
  masterName : String := ""
  deriving DecidableEq

/-- `hook`, the tracing hook of a redis client. -/
structure Hook where
  addrs : List String
  database : Int
  tracer : Nat
  deriving DecidableEq

/-- A `redis.UniversalClient`: its options and the hooks added to it. -/
structure RedisClient where
  options : UniversalOptions
  hooks : List Hook
  deriving DecidableEq

/--
`RedisIn`, the injection parameter of `ProvideRedis`: the configuration, and
the optional `RedisConfigurationInterceptor` and `opentracing.Tracer`.
-/
structure RedisIn where
  conf : ConfigAccessor UniversalOptions
  interceptor : Option (String → UniversalOptions → UniversalOptions)
  tracer : Option Nat

/-- `RedisOut`: the `Maker` and the default client, `nil` when it failed. -/
structure RedisOut where
  make : String → Except String RedisClient
  client : Option RedisClient

/--
`redis.NewUniversalClient(&conf)`, then `client.AddHook(hook{...})` with the
addresses and database of `conf` when a tracer is present.
-/
def newClient (tracer : Option Nat) (conf : UniversalOptions) : RedisClient :=
  match tracer with
  | some tracer => ⟨conf, [⟨conf.addrs, conf.db, tracer⟩]⟩
  | none => ⟨conf, []⟩

/-- The builder `ProvideRedis` hands to `async.NewFactory`. -/
def redisBuilder (p : RedisIn) (dbConfs : List (String × UniversalOptions))
    (name : String) : Except String RedisClient :=
  match dbConfs.lookup name with
  | none => .error (notValid "redis" name)
  | some conf => .ok (newClient p.tracer (intercept p.interceptor name conf))

/-- `ProvideRedis`: the factory and the default client, and the key-value pairs it logs. -/
def provideRedis (p : RedisIn) : RedisOut × List (String × String) :=
  let (dbConfs, warnings) := unmarshalConfs p.conf "redis"
  (⟨redisBuilder p dbConfs, (redisBuilder p dbConfs "default").toOption⟩, warnings)

/-- `RedisOut.ProvideConfig`: the exported configuration of package otredis. -/
def RedisOut.provideConfig (_ : RedisOut) : List (ExportedConfig UniversalOptions) :=
  [⟨"redis", [("redis", [("default", { addrs := ["127.0.0.1:6379"] })])],
    "The configuration of redis clients"⟩]

end DoNewsStd.Provider.Clients
