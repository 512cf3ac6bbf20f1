import Snabb.Foundation.LuaTree
import Snabb.Foundation.Orders
import Snabb.Foundation.Table

/-!
# Overwriting a configuration (`program/hybrid_access/hybrid_access.lua`, `base/base.lua`)

`parse_cli` reads options such as `-r1=off` from the command line into a table and applies them to
the configuration, a tree of tables. It goes over the table with `pairs`, that is, in an order which
is not specified. What raises is `none`.
-/

namespace Snabb.Overwrites

open Foundation

open LuaValue hiding nil

/-- Numbers, as far as the configuration needs them. -/
structure Numerals (N : Type) where
  tonumber : String → Option N
  times : N → Nat → N

variable {N : Type}

/-! ## Values (`base.lua`) -/

/-- What `tonumber` returns. -/
def Numerals.value (n : Numerals N) (s : String) : LuaValue N :=
  match n.tonumber s with
  | some x => .number x
  | none => .nil

/-- `string.match(s, "^([%d%.]+)unit$")`. -/
def matchUnit (unit s : List Char) : Option String :=
  let digits := s.take (s.length - unit.length)
  if unit.isSuffixOf s ∧ digits ≠ [] ∧ digits.all fun c => c.isDigit || c = '.' then
    some (String.ofList digits)
  else none

/-- The shape of the functions that read a number with a unit. Without a factor the number is not
multiplied, and then it may be `nil`. -/
def resolveUnits (n : Numerals N) (units : List (String × Option Nat)) (s : String) :
    Option (LuaValue N) :=
  let lower := s.toList.map Char.toLower
  let found := units.findSome? fun unit =>
    (matchUnit unit.1.toList lower).map fun digits => (digits, unit.2)
  match found with
  | some (digits, some factor) => (n.tonumber digits).map fun x => .number (n.times x factor)
  | some (digits, none) => some (n.value digits)
  | none => some (n.value s)

/-- `resolve_time`. -/
def resolveTime (n : Numerals N) : String → Option (LuaValue N) :=
  resolveUnits n [("ms", some 1000000), ("us", some 1000), ("ns", none), ("s", some 1000000000)]

/-- `resolve_bandwidth`. -/
def resolveBandwidth (n : Numerals N) : String → Option (LuaValue N) :=
  resolveUnits n
    [("gbit", some 1000000000), ("mbit", some 1000000), ("kbit", some 1000), ("bit", none)]

/-- `resolve_number`. -/
def resolveNumber (n : Numerals N) : String → Option (LuaValue N) :=
  resolveUnits n [("g", some 1000000000), ("m", some 1000000), ("k", some 1000)]

/-- `resolve_bool`. -/
def resolveBool (s : String) : Bool :=
  String.ofList (s.toList.map Char.toLower) ∈ ["yes", "y", "1", "on", "true"]

/-- How the value of an option is read. -/
inductive Resolver where
  | time
  | bandwidth
  | number
  | bool
  | tonumber
deriving DecidableEq, Repr

def Resolver.resolve (n : Numerals N) : Resolver → String → Option (LuaValue N)
  | time, s => resolveTime n s
  | bandwidth, s => resolveBandwidth n s
  | number, s => resolveNumber n s
  | bool, s => some (.boolean (resolveBool s))
  | tonumber, s => some (n.value s)

/-! ## Options -/

/-- `%w`. -/
def isWord (c : Char) : Bool := c.isAlphanum

/-- An optional quotation mark. -/
def skipQuote (s : List Char) : List Char := if s.head? = some '"' then s.tail else s

/-- `string.match(i, "^-(%w+)=\"?([%w%.]+)\"?$")`. -/
def matchOption : List Char → Option (String × String)
  | '-' :: rest =>
    let key := rest.takeWhile isWord
    match rest.dropWhile isWord with
    | '=' :: rest =>
      let value := (skipQuote rest).takeWhile fun c => isWord c || c = '.'
      let rest := (skipQuote rest).dropWhile fun c => isWord c || c = '.'
      if key ≠ [] ∧ value ≠ [] ∧ skipQuote rest = [] then
        some (String.ofList key, String.ofList value)
      else none
    | _ => none
  | _ => none

/-- The table of options. -/
def overwrites (str : String) : Table String String :=
  ((str.toList.splitOn ';').filter (· ≠ [])).foldl (fun table item =>
    match matchOption item with
    | some (k, v) => table.insert k v
    | none => table) ∅

/-! ## What options overwrite -/

/-- What a branch of `parse_cli` is about. -/
inductive Setting where
  | delay (link : String)
  | delayCorr (link : String)
  | rate (link : String)
  | rateLimiter (link field : String) (resolver : Resolver)
  | timestamp
  | recDelay (n : Nat)
  | loadbalancer
  | wrrBandwidth (output : String)
  | balancer (field : String) (resolver : Resolver)
deriving DecidableEq, Repr

/-- A branch: the keys that it is for, and a value that some branches compare with by mistake. -/
structure Branch where
  keys : List String
  value : Option String
  setting : Setting

/-- The branches of `parse_cli`, in their order. -/
def branches : List Branch := [
  ⟨["d1", "delay1"], none, .delay "link1"⟩,
  ⟨["d2", "delay2"], none, .delay "link2"⟩,
  ⟨["dc1", "delay_corr1"], none, .delayCorr "link1"⟩,
  ⟨["dc2", "delay_corr2"], none, .delayCorr "link2"⟩,
  ⟨["r1", "rate1"], none, .rate "link1"⟩,
  ⟨["r2", "rate2"], none, .rate "link2"⟩,
  ⟨["c1", "capacity1"], none, .rateLimiter "link1" "bucket_capacity" .number⟩,
  ⟨["c2", "capacity2"], none, .rateLimiter "link2" "bucket_capacity" .number⟩,
  ⟨["l1", "latency1"], none, .rateLimiter "link1" "buffer_latency" .time⟩,
  ⟨["l2", "latency2"], none, .rateLimiter "link2" "buffer_latency" .time⟩,
  ⟨["b1", "buffer1"], none, .rateLimiter "link1" "buffer_capacity" .number⟩,
  ⟨["b2", "buffer2"], none, .rateLimiter "link2" "buffer_capacity" .number⟩,
  ⟨["o1", "overhead1"], none, .rateLimiter "link1" "additional_overhead" .number⟩,
  ⟨["o2", "overhead2"], none, .rateLimiter "link2" "additional_overhead" .number⟩,
  ⟨["ol1_1", "overhead_layer1_1"], none, .rateLimiter "link1" "layer1_overhead" .bool⟩,
  ⟨["ol1_2", "overhead_layer1_2"], none, .rateLimiter "link2" "layer1_overhead" .bool⟩,
  ⟨["ts", "timestamp"], none, .timestamp⟩,
  ⟨["rd1", "rec_delay1"], none, .recDelay 1⟩,
  ⟨["rd2", "rec_delay2"], none, .recDelay 2⟩,
  ⟨["l", "loadbalancer"], none, .loadbalancer⟩,
  ⟨["wrrb1"], some "wrr_bandwidth1", .wrrBandwidth "output1"⟩,
  ⟨["wrrb2"], some "wrr_bandwidth2", .wrrBandwidth "output2"⟩,
  ⟨["tbr"], some "tb_rate", .balancer "rate" .bandwidth⟩,
  ⟨["tbc"], some "tb_capacity", .balancer "capacity" .number⟩,
  ⟨["tbrp"], some "tb_rate_percentage", .balancer "rate_percentage" .tonumber⟩,
  ⟨["tbcp"], some "tb_capacity_percentage", .balancer "capacity_percentage" .tonumber⟩,
  ⟨["tbdl"], some "tb_ddc_link", .balancer "ddc_link" .tonumber⟩,
  ⟨["tbdsl"], some "tb_ddc_skip_limit", .balancer "ddc_skip_limit" .tonumber⟩]

/-- The path and the type of a load balancer. -/
def balancerOf (value : String) : Option (String × String) :=
  if value = "sl" ∨ value = "singlelink" then
    some ("program.hybrid_access.loadbalancer.single_link", "SingleLink")
  else if value = "rr" ∨ value = "roundrobin" then
    some ("program.hybrid_access.loadbalancer.roundrobin", "RoundRobin")
  else if value = "wrr" ∨ value = "weighted_roundrobin" then
    some ("program.hybrid_access.loadbalancer.weighted_roundrobin", "WeightedRoundRobin")
  else if value = "tb" ∨ value = "tokenbucket" then
    some ("program.hybrid_access.loadbalancer.tokenbucket", "TokenBucket")
  else if value = "tbddc" ∨ value = "tokenbucket_ddc" then
    some ("program.hybrid_access.loadbalancer.tokenbucket_ddc", "TokenBucketDDC")
  else if value = "tbddcs" ∨ value = "tokenbucket_ddc_series" then
    some ("program.hybrid_access.loadbalancer.tokenbucket_ddc_series", "TokenBucketDDCSeries")
  else none

/-- `cfg.link.part ~= nil`. -/
def present (link part : String) (cfg : LuaValue N) : Option Bool := do
  let linkConfig ← cfg.index (.name link)
  let v ← linkConfig.index (.name part)
  return !v.isNil

/-- `cfg.path.field = resolve(value)`. -/
def setField (path : List LuaKey) (field : LuaKey) (w : Option (LuaValue N)) (cfg : LuaValue N) :
    Option (LuaValue N) :=
  modifyAt path (fun v => do v.assign field (← w)) cfg

/-- What a branch asks of the configuration before it is taken. -/
def guard (cfg : LuaValue N) : Setting → Option Bool
  | .delay link => present link "delayer" cfg
  | .delayCorr link => present link "delayer" cfg
  | .rateLimiter link _ _ => present link "rate_limiter" cfg
  | _ => some true

/-- The timestamps of a link that has both a rate limiter and a delayer. -/
def setTimestamps (link value : String) (cfg : LuaValue N) : Option (LuaValue N) := do
  let w : LuaValue N := .boolean (resolveBool value)
  let limiter ← present link "rate_limiter" cfg
  if !limiter then return cfg
  let delayer ← present link "delayer" cfg
  if !delayer then return cfg
  let cfg ← setField [.name link, .name "rate_limiter"] (.name "timestamp") (some w) cfg
  setField [.name link, .name "delayer"] (.name "timestamp") (some w) cfg

/-- The statements of a branch. -/
def perform (n : Numerals N) (value : String) (cfg : LuaValue N) : Setting → Option (LuaValue N)
  | .delay link =>
    if value = "off" then setField [.name link] (.name "delayer") (some .nil) cfg
    else setField [.name link, .name "delayer"] (.name "delay") (resolveTime n value) cfg
  | .delayCorr link =>
    setField [.name link, .name "delayer"] (.name "correction") (resolveTime n value) cfg
  | .rate link =>
    if value = "off" then setField [.name link] (.name "rate_limiter") (some .nil) cfg
    else setField [.name link, .name "rate_limiter"] (.name "rate") (resolveBandwidth n value) cfg
  | .rateLimiter link field resolver =>
    setField [.name link, .name "rate_limiter"] (.name field) (resolver.resolve n value) cfg
  | .timestamp => do
    let cfg ← setTimestamps "link1" value cfg
    setTimestamps "link2" value cfg
  | .recDelay i =>
    setField [.name "recombination", .name "config", .name "link_delays"] (.number i)
      (resolveTime n value) cfg
  | .loadbalancer =>
    match balancerOf value with
    | some (path, type) => do
      let cfg ← setField [.name "loadbalancer"] (.name "path") (some (.string path)) cfg
      setField [.name "loadbalancer"] (.name "type") (some (.string type)) cfg
    | none => some cfg
  | .wrrBandwidth output => do
    let balancer ← cfg.index (.name "loadbalancer")
    let config ← balancer.index (.name "config")
    let bandwidths ← config.index (.name "bandwidths")
    let cfg ← if bandwidths.truthy then some cfg
      else setField [.name "loadbalancer", .name "config"] (.name "bandwidths") (some empty) cfg
    setField [.name "loadbalancer", .name "config", .name "bandwidths"] (.name output)
      (some (n.value value)) cfg
  | .balancer field resolver =>
    setField [.name "loadbalancer", .name "config"] (.name field) (resolver.resolve n value) cfg

/-- The body of the loop: the first branch whose condition holds. -/
def overwriteBy (n : Numerals N) : List Branch → LuaValue N → String × String →
    Option (LuaValue N)
  | [], cfg, _ => some cfg
  | b :: rest, cfg, (key, value) =>
    if key ∈ b.keys ∨ b.value = some value then do
      if ← guard cfg b.setting then perform n value cfg b.setting
      else overwriteBy n rest cfg (key, value)
    else overwriteBy n rest cfg (key, value)

def overwrite (n : Numerals N) : LuaValue N → String × String → Option (LuaValue N) :=
  overwriteBy n branches

/-- The options, in the order of the table. -/
def options (str : String) : List (String × String) :=
  (overwrites str).entries.map fun e => (e.1, e.2)

/-- `parse_cli`, if `pairs` goes over the options in this order. -/
def parseCli (n : Numerals N) (order : List (String × String)) (cfg : LuaValue N) :
    Option (LuaValue N) :=
  order.foldlM (overwrite n) cfg

end Snabb.Overwrites
