import Discovery.Interleave
import Discovery.Overlay
import Discovery.Stats.Ring

namespace Discovery
namespace Stats
open Server (LookupKind sortBy)

/-- One recorded discovery request. -/
structure Lookup where
  time : Time := 0
  client : GoString := []
  service : GoString
  kind : LookupKind
  version : GoString := []
  count : Int := 0
  inst : GoString := []
  address : GoString := []
  deriving DecidableEq

/-- `Time.Unix`. -/
def Lookup.second (l : Lookup) : Int := l.time / 1000000000

/-- Recent lookups kept for the live feed. -/
def feedSize : Nat := 200

structure SvcStat where
  counts : Tally LookupKind := ∅
  ring : Ring := Ring.fresh

/-- The collector's entry of a client. -/
structure ClientEntry where
  total : Int := 0
  lastSeen : Time := 0
  services : Tally GoString := ∅
  lastInstance : AList (fun _ : GoString => GoString) := ∅

structure Collector where
  svc : AList (fun _ : GoString => SvcStat) := ∅
  feed : List Lookup := []
  clients : AList (fun _ : GoString => ClientEntry) := ∅

namespace Collector

def svcStat (c : Collector) (service : GoString) : SvcStat := (c.svc.lookup service).getD {}

def client (c : Collector) (name : GoString) : ClientEntry := (c.clients.lookup name).getD {}

end Collector

def SvcStat.add (ss : SvcStat) (l : Lookup) : SvcStat where
  counts := ss.counts.incr l.kind
  ring := ss.ring.incr l.second

def ClientEntry.add (cs : ClientEntry) (l : Lookup) : ClientEntry where
  total := cs.total + 1
  lastSeen := l.time
  services := cs.services.incr l.service
  lastInstance := if l.inst ≠ [] then cs.lastInstance.insert l.service l.inst else cs.lastInstance

/-- The lookup with the present time, where it comes without one. -/
def Lookup.stamped (clock : Time) (l : Lookup) : Lookup := if l.time = 0 then { l with time := clock } else l

/-- `Record` after the stamp. -/
def Collector.add (c : Collector) (l : Lookup) : Collector where
  svc := c.svc.insert l.service ((c.svcStat l.service).add l)
  feed :=
    let feed := c.feed ++ [l]
    if feedSize < feed.length then feed.drop (feed.length - feedSize) else feed
  clients := if l.client ≠ [] then c.clients.insert l.client ((c.client l.client).add l) else c.clients

def Collector.record (c : Collector) (clock : Time) (l : Lookup) : Collector := c.add (l.stamped clock)

/-- The collector of a node after the lookups it served, each with the time at which it was recorded. -/
def Collector.served (calls : List (Time × Lookup)) : Collector :=
  calls.foldl (fun c call => c.record call.1 call.2) {}

/-- The line of a service in the view of the dashboard. -/
structure ServiceStat where
  service : GoString
  total : Int
  byKind : Tally LookupKind
  rps : ℚ
  sparkline : List Int

structure ClientServiceStat where
  service : GoString
  count : Int
  lastInstance : GoString

/-- The line of a client. -/
structure ClientStat where
  name : GoString
  total : Int
  lastSeen : Time
  services : List ClientServiceStat

structure Snapshot where
  services : List ServiceStat
  clients : List ClientStat
  feed : List Lookup

/-- The orders in which the loops over the maps happen to visit them. -/
structure Visits (c : Collector) where
  services : List GoString
  clients : List GoString
  clientServices : GoString → List GoString
  allServices : services.Perm c.svc.keys
  allClients : clients.Perm c.clients.keys
  allClientServices : ∀ name, (clientServices name).Perm (c.client name).services.keys

def Visits.inOrder (c : Collector) : Visits c where
  services := c.svc.keys
  clients := c.clients.keys
  clientServices name := (c.client name).services.keys
  allServices := .refl _
  allClients := .refl _
  allClientServices _ := .refl _

/-- No result where `series` panics. -/
def serviceStat (c : Collector) (now rateWindow sparkSpan : Int) (name : GoString) : Option ServiceStat := do
  let ss := c.svcStat name
  let rps ← ss.ring.rate now rateWindow
  let sparkline ← ss.ring.series now sparkSpan
  some { service := name, total := ss.counts.sum, byKind := ss.counts, rps, sparkline }

def clientStat {c : Collector} (visits : Visits c) (name : GoString) : ClientStat :=
  let cs := c.client name
  { name
    total := cs.total
    lastSeen := cs.lastSeen
    services := sortBy (fun a b => b.count < a.count) ((visits.clientServices name).map fun service =>
      ⟨service, cs.services.count service, (cs.lastInstance.lookup service).getD []⟩) }

def busier (a b : ServiceStat) : Bool := if a.rps ≠ b.rps then b.rps < a.rps else a.service < b.service

/-- `Snapshot`, with the services sorted by their rate and the clients by their total. -/
def snapshot {c : Collector} (visits : Visits c) (now rateWindow sparkSpan : Int) : Option Snapshot := do
  let svcs ← visits.services.mapM (serviceStat c now rateWindow sparkSpan)
  some
    { services := sortBy busier svcs
      clients := sortBy (fun a b => b.total < a.total) (visits.clients.map (clientStat visits))
      feed := c.feed.reverse }

/-- The lookups as they were recorded. -/
def recorded (calls : List (Time × Lookup)) : List Lookup := calls.map fun call => call.2.stamped call.1

theorem served_eq (calls : List (Time × Lookup)) : Collector.served calls = (recorded calls).foldl Collector.add {} := by
  rw [Collector.served, recorded, List.foldl_map]
  rfl

namespace Collector

/-- The feed is the end of the log. -/
theorem feed_foldl (log : List Lookup) : (log.foldl add {}).feed.reverse = log.reverse.take feedSize := by
  induction log using List.reverseRecOn with
  | nil => rfl
  | append_singleton log l ih =>
    have kept (feed : List Lookup) :
        (if feedSize < feed.length then feed.drop (feed.length - feedSize) else feed).reverse =
        feed.reverse.take feedSize := by
      rw [List.take_reverse]
      split
      · rfl
      next short => rw [Nat.sub_eq_zero_of_le (Nat.le_of_not_lt short), List.drop_zero]
    rw [List.foldl_append, List.foldl_cons, List.foldl_nil, add, kept, List.reverse_append, ih, List.reverse_append]
    simp [feedSize, List.take_take]

/-- A lookup changes the entry of its own service. -/
theorem svcStat_add (c : Collector) (l : Lookup) (name : GoString) :
    (c.add l).svcStat name = if l.service = name then (c.svcStat name).add l else c.svcStat name := by
  split
  next same =>
    subst same
    rw [svcStat, add, AList.lookup_insert]
    rfl
  next other => rw [svcStat, add, AList.lookup_insert_ne (Ne.symm other), svcStat]

/-- A service's entry has seen the lookups of that service. -/
theorem svcStat_foldl (log : List Lookup) (name : GoString) :
    (log.foldl add {}).svcStat name = (log.filter (·.service = name)).foldl SvcStat.add {} := by
  refine Interleave.read_foldl (fun c : Collector => c.svcStat name) SvcStat.add (fun l _ own c => ?_)
    (fun l _ other c => ?_) {}
  · rw [svcStat_add, if_pos (of_decide_eq_true own)]
  · rw [svcStat_add, if_neg (of_decide_eq_false other)]

/-- A lookup changes the entry of the client that names itself, and of nobody without a name. -/
theorem client_add (c : Collector) (l : Lookup) {name : GoString} (named : name ≠ []) :
    (c.add l).client name = if l.client = name then (c.client name).add l else c.client name := by
  split
  next same =>
    subst same
    rw [client, add, if_pos named, AList.lookup_insert]
    rfl
  next other =>
    rw [client, add]
    split
    · rw [AList.lookup_insert_ne (Ne.symm other), client]
    · rfl

theorem client_foldl (log : List Lookup) {name : GoString} (named : name ≠ []) :
    (log.foldl add {}).client name = (log.filter (·.client = name)).foldl ClientEntry.add {} := by
  refine Interleave.read_foldl (fun c : Collector => c.client name) ClientEntry.add (fun l _ own c => ?_)
    (fun l _ other c => ?_) {}
  · rw [client_add c l named, if_pos (of_decide_eq_true own)]
  · rw [client_add c l named, if_neg (of_decide_eq_false other)]

theorem mem_svc (log : List Lookup) (name : GoString) :
    name ∈ (log.foldl add {}).svc ↔ ∃ l ∈ log, l.service = name := by
  induction log using List.reverseRecOn with
  | nil => simp
  | append_singleton log l ih =>
    rw [List.foldl_append, List.foldl_cons, List.foldl_nil, add, AList.mem_insert, ih]
    simp only [List.mem_append, List.mem_singleton, or_and_right, exists_or, exists_eq_left]
    rw [or_comm, eq_comm]

/-- Only clients that name themselves have an entry. -/
theorem mem_clients (log : List Lookup) (name : GoString) :
    name ∈ (log.foldl add {}).clients ↔ name ≠ [] ∧ ∃ l ∈ log, l.client = name := by
  induction log using List.reverseRecOn with
  | nil => simp
  | append_singleton log l ih =>
    simp only [List.foldl_append, List.foldl_cons, List.foldl_nil, add, List.mem_append, List.mem_singleton,
      or_and_right, exists_or, exists_eq_left]
    by_cases anonymous : l.client = []
    · rw [if_neg (not_not.mpr anonymous), ih, anonymous]
      grind
    · rw [if_pos anonymous, AList.mem_insert, ih]
      grind

end Collector

/-- The counters by kind are a loop of their own over the lookups of the service. -/
theorem counts_foldl (own : List Lookup) : (own.foldl SvcStat.add {}).counts =
    own.foldl (fun m l => m.incr l.kind) ∅ :=
  (List.foldl_hom SvcStat.counts fun _ _ => rfl).symm

/-- The ring counts the seconds of the lookups. -/
theorem ring_add_foldl (own : List Lookup) : (own.foldl SvcStat.add {}).ring =
    (own.map Lookup.second).foldl Ring.incr Ring.fresh := by
  rw [List.foldl_map]
  exact (List.foldl_hom SvcStat.ring fun _ _ => rfl).symm

/-- `RequestTotals` shows the counters that the metrics page prints. -/
theorem counts_served (calls : List (Time × Lookup)) (service : GoString) :
    ((Collector.served calls).svcStat service).counts =
      (Server.Collector.served ((recorded calls).map fun l => ⟨l.service, l.kind⟩)).counts service := by
  rw [served_eq, Collector.svcStat_foldl, counts_foldl, Server.Collector.served, Server.Collector.counts_foldl,
    List.foldl_filter, List.foldl_map]
  simp only [decide_eq_true_eq]
  rfl

/-- The total over the kinds is the number of lookups. -/
theorem sum_counts_foldl (own : List Lookup) : (own.foldl SvcStat.add {}).counts.sum = own.length := by
  rw [counts_foldl]
  induction own using List.reverseRecOn with
  | nil => rfl
  | append_singleton own l ih => simp [Tally.sum_incr, ih]

theorem count_foldl (own : List Lookup) (kind : LookupKind) :
    (own.foldl SvcStat.add {}).counts.count kind = own.countP (·.kind = kind) := by
  rw [counts_foldl, (Tally.incr_counts Lookup.kind).count_foldl]
  simp

theorem total_foldl (own : List Lookup) : (own.foldl ClientEntry.add {}).total = own.length := by
  induction own using List.reverseRecOn with
  | nil => rfl
  | append_singleton own l ih => simp [ClientEntry.add, ih]

theorem lastSeen_foldl (own : List Lookup) (l : Lookup) :
    ((own ++ [l]).foldl ClientEntry.add {}).lastSeen = l.time := by
  rw [List.foldl_append]
  rfl

theorem services_foldl (own : List Lookup) : (own.foldl ClientEntry.add {}).services =
    own.foldl (fun m l => m.incr l.service) ∅ :=
  (List.foldl_hom ClientEntry.services fun _ _ => rfl).symm

/-- The source's `int64` reads alike. -/
def Unwrapped (n : Int) : Prop := Int.bmod n (2 ^ 64) = n

theorem unwrapped_length {log : List Lookup} (few : log.length < 2 ^ 63) (p : Lookup → Bool) :
    Unwrapped (log.filter p).length := by
  have fewer := List.length_filter_le p log
  exact Int.bmod_eq_of_le_mul_two (by push_cast; omega) (by push_cast; omega)

/-- The counters of services and clients are exact integers here; those of the source count alike until 2^63
lookups have been recorded. -/
theorem counters_unwrapped {log : List Lookup} (few : log.length < 2 ^ 63) :
    (∀ service, (∀ kind, Unwrapped (((log.foldl Collector.add {}).svcStat service).counts.count kind)) ∧
      Unwrapped ((log.foldl Collector.add {}).svcStat service).counts.sum) ∧
    ∀ name, name ≠ [] → Unwrapped ((log.foldl Collector.add {}).client name).total ∧
      ∀ service, Unwrapped (((log.foldl Collector.add {}).client name).services.count service) := by
  have shorter (p : Lookup → Bool) : (log.filter p).length < 2 ^ 63 :=
    Nat.lt_of_le_of_lt (List.length_filter_le p log) few
  constructor
  · intro service
    rw [Collector.svcStat_foldl, sum_counts_foldl, counts_foldl]
    exact ⟨(Tally.incr_counts Lookup.kind).unwrapped (shorter _), unwrapped_length few _⟩
  · intro name named
    rw [Collector.client_foldl log named, total_foldl, services_foldl]
    exact ⟨unwrapped_length few _, (Tally.incr_counts Lookup.service).unwrapped (shorter _)⟩

/-- The instance that the last of the lookups of a service was given, of those that were given one. -/
def lastInstance (own : List Lookup) (service : GoString) : Option GoString :=
  Overlay.last (fun l : Lookup => if l.service = service ∧ l.inst ≠ [] then some l.inst else none) own

/-- A client is remembered with the last instance of each service that a lookup has given it. -/
theorem lastInstance_foldl (own : List Lookup) (service : GoString) :
    (own.foldl ClientEntry.add {}).lastInstance.lookup service = lastInstance own service := by
  have lays (cs : ClientEntry) (l : Lookup) : (cs.add l).lastInstance.lookup service =
      ((if l.service = service ∧ l.inst ≠ [] then some l.inst else none).map id).or
        (cs.lastInstance.lookup service) := by
    rw [ClientEntry.add]
    by_cases chosen : l.inst ≠ []
    · by_cases own : l.service = service
      · subst own
        simp [chosen, AList.lookup_insert]
      · simp [chosen, own, AList.lookup_insert_ne (Ne.symm own)]
    · simp [chosen]
  have read := Overlay.read_foldl (fun cs : ClientEntry => cs.lastInstance.lookup service)
    (fun cs l (_ : l ∈ own) => lays cs l) {}
  rw [read, lastInstance, Option.map_id_fun, id]
  exact Option.or_none

/-- The line of a service counts its lookups. -/
structure OfService (own : List Lookup) (now : Int) (window span : Nat) (st : ServiceStat) : Prop where
  total : st.total = own.length
  byKind : ∀ kind, st.byKind.count kind = own.countP (·.kind = kind)
  rps : st.rps = (own.countP fun l => now - window < l.second : Nat) / (window : ℚ)
  sparkline : st.sparkline =
    (List.range span).map fun k : Nat => (own.countP (·.second = now - (span - 1 - k)) : Int)

/-- The line of a client counts its lookups, service by service. -/
structure OfClient (own : List Lookup) (st : ClientStat) : Prop where
  total : st.total = own.length
  lastSeen : ∃ l, own.getLast? = some l ∧ st.lastSeen = l.time
  sorted : st.services.Pairwise fun a b => b.count ≤ a.count
  once : (st.services.map ClientServiceStat.service).Nodup
  services : ∀ line, line ∈ st.services ↔ (∃ l ∈ own, l.service = line.service) ∧
    line.count = own.countP (·.service = line.service) ∧
    line.lastInstance = (lastInstance own line.service).getD []

/-- The dashboard shows the log: the end of it, newest first, and each service and each named client once, the busiest
first. Services are as busy as their rates, and in the order of their names where these agree. -/
structure Shows (log : List Lookup) (now : Int) (window span : Nat) (s : Snapshot) : Prop where
  feed : s.feed = log.reverse.take feedSize
  servicesSorted : s.services.Pairwise fun a b => b.rps < a.rps ∨ a.rps = b.rps ∧ a.service < b.service
  services : ∀ name, (∃ st ∈ s.services, st.service = name) ↔ ∃ l ∈ log, l.service = name
  ofService : ∀ st ∈ s.services, OfService (log.filter (·.service = st.service)) now window span st
  clientsSorted : s.clients.Pairwise fun a b => b.total ≤ a.total
  clientsOnce : (s.clients.map ClientStat.name).Nodup
  clients : ∀ name, (∃ st ∈ s.clients, st.name = name) ↔ name ≠ [] ∧ ∃ l ∈ log, l.client = name
  ofClient : ∀ st ∈ s.clients, OfClient (log.filter (·.client = st.name)) st

/-- Sorting by a total preorder puts every earlier element before every later one. -/
theorem sortBy_pairwise {ι : Type} {less : ι → ι → Bool} {r : ι → ι → Prop}
    (means : ∀ a b, less b a = false ↔ r a b) (total : ∀ a b, r a b ∨ r b a)
    (trans : ∀ a b c, r a b → r b c → r a c) (l : List ι) : (sortBy less l).Pairwise r := by
  have spelled (a b : ι) : (!less b a) = true ↔ r a b := by
    rw [Bool.not_eq_true', means]
  have : Std.Total fun a b : ι => (!less b a) = true :=
    ⟨fun a b => (total a b).imp (spelled a b).mpr (spelled b a).mpr⟩
  have : IsTrans ι fun a b => (!less b a) = true :=
    ⟨fun a b c first second => (spelled a c).mpr (trans a b c ((spelled a b).mp first) ((spelled b c).mp second))⟩
  exact (List.pairwise_insertionSort _ l).imp fun {a b} => (spelled a b).mp

theorem map_perm_sortBy {ι α : Type} (less : ι → ι → Bool) (f : ι → α) (l : List ι) :
    ((sortBy less l).map f).Perm (l.map f) :=
  (List.perm_insertionSort _ l).map f

/-- Services with names of their own are sorted in one way. -/
theorem servicesSorted {svcs : List ServiceStat} (distinct : (svcs.map ServiceStat.service).Nodup) :
    (sortBy busier svcs).Pairwise fun a b => b.rps < a.rps ∨ a.rps = b.rps ∧ a.service < b.service := by
  have sorted : (sortBy busier svcs).Pairwise fun a b => b.rps < a.rps ∨ a.rps = b.rps ∧ a.service ≤ b.service := by
    refine sortBy_pairwise (fun a b => ?_) (fun a b => ?_) (fun a b c first second => ?_) svcs
    · rw [busier]
      by_cases same : b.rps = a.rps
      · simp [same]
      · simp [same, Ne.symm same, lt_iff_le_and_ne]
    · rcases lt_trichotomy a.rps b.rps with slower | same | faster
      · exact Or.inr (Or.inl slower)
      · exact (List.le_total a.service b.service).imp (fun le => Or.inr ⟨same, le⟩) fun ge => Or.inr ⟨same.symm, ge⟩
      · exact Or.inl (Or.inl faster)
    · rcases first with faster | ⟨same, le⟩
      · rcases second with faster' | ⟨same', -⟩
        · exact Or.inl (faster'.trans faster)
        · exact Or.inl (same' ▸ faster)
      · rcases second with faster' | ⟨same', le'⟩
        · exact Or.inl (same ▸ faster')
        · exact Or.inr ⟨same.trans same', List.le_trans le le'⟩
  have names := List.pairwise_map.mp ((map_perm_sortBy busier ServiceStat.service svcs).nodup_iff.mpr distinct)
  refine (sorted.and names).imp fun {a b} both => ?_
  obtain ⟨faster | ⟨same, le⟩, different⟩ := both
  · exact Or.inl faster
  · exact Or.inr ⟨same, List.not_le.mp fun ge => different (List.le_antisymm le ge)⟩

/-- Lookups of the present epoch that come less than a round behind the latest one so far, seen at `now`. -/
structure Timely (log : List Lookup) (now : Int) : Prop where
  positive : ∀ l ∈ log, 0 < l.second
  recent : log.Pairwise fun l m : Lookup => l.second - (ringSeconds : Int) < m.second
  latest : ∀ l ∈ log, l.second ≤ now
  int64 : now < 2 ^ 63

section
variable {log : List Lookup} {now : Int} (timely : Timely log now) {window span : Nat} (least : 0 < window)
    (windowBound : window ≤ ringSeconds) (spanBound : span ≤ ringSeconds)
include timely

/-- The lookups of one service are as timely as all of them. -/
theorem Timely.filter (p : Lookup → Bool) : Timely (log.filter p) now where
  positive l member := timely.positive l (List.mem_of_mem_filter member)
  recent := timely.recent.filter _
  latest l member := timely.latest l (List.mem_of_mem_filter member)
  int64 := timely.int64

include spanBound in
/-- The sparkline counts the lookups of each second. -/
theorem Timely.series : ((log.map Lookup.second).foldl Ring.incr Ring.fresh).series now span =
    some ((List.range span).map fun k : Nat => (log.countP (·.second = now - (span - 1 - k)) : Int)) := by
  rw [series_exact (List.forall_mem_map.mpr timely.positive) (List.pairwise_map.mpr timely.recent) timely.int64
    (List.forall_mem_map.mpr timely.latest) spanBound]
  refine congrArg some (List.map_congr_left fun k _ => ?_)
  rw [List.count, List.countP_map]
  exact congrArg Nat.cast (List.countP_congr fun l _ => by simp)

include least windowBound in
/-- The rate is the number of lookups in the window over its length. -/
theorem Timely.rate : ((log.map Lookup.second).foldl Ring.incr Ring.fresh).rate now window =
    some ((log.countP fun l => now - window < l.second : Nat) / (window : ℚ)) := by
  rw [rate_exact (List.forall_mem_map.mpr timely.positive) (List.pairwise_map.mpr timely.recent) timely.int64
    (List.forall_mem_map.mpr timely.latest) least windowBound, List.countP_map]
  rfl

include least windowBound spanBound in
/-- The line of a service is there, and counts its lookups. -/
theorem serviceStat_foldl (name : GoString) :
    ∃ st, serviceStat (log.foldl Collector.add {}) now window span name = some st ∧ st.service = name ∧
      OfService (log.filter (·.service = name)) now window span st := by
  have own := timely.filter (·.service = name)
  have rate := own.rate least windowBound
  have series := own.series spanBound
  rw [← ring_add_foldl, ← Collector.svcStat_foldl] at rate series
  have there := Collector.svcStat_foldl log name
  rw [serviceStat, rate, series]
  refine ⟨_, rfl, rfl, ?_, fun kind => ?_, rfl, rfl⟩
  · show Tally.sum ((log.foldl Collector.add {}).svcStat name).counts = _
    rw [there, sum_counts_foldl]
  · show Tally.count ((log.foldl Collector.add {}).svcStat name).counts kind = _
    rw [there, count_foldl]

end

/-- The line of a client counts its lookups, whichever way its services are visited. -/
theorem clientStat_foldl {log : List Lookup} (visits : Visits (log.foldl Collector.add {})) {name : GoString}
    (named : name ≠ []) (seen : ∃ l ∈ log, l.client = name) :
    OfClient (log.filter (·.client = name)) (clientStat visits name) := by
  have entry := Collector.client_foldl log named
  have services := visits.allClientServices name
  rw [entry, services_foldl] at services
  have nonempty : log.filter (·.client = name) ≠ [] := by
    obtain ⟨l, member, own⟩ := seen
    exact List.ne_nil_of_mem (List.mem_filter.mpr ⟨member, decide_eq_true own⟩)
  generalize log.filter (·.client = name) = own at entry services nonempty
  constructor
  · rw [clientStat, entry, total_foldl]
  · obtain ⟨earlier, l, rfl⟩ := (List.eq_nil_or_concat own).resolve_left nonempty
    rw [List.concat_eq_append] at entry ⊢
    refine ⟨l, List.getLast?_concat, ?_⟩
    rw [clientStat, entry, lastSeen_foldl]
  · refine sortBy_pairwise (fun a b => ?_) (fun a b => ?_) (fun a b c first second => ?_) _
    · rw [decide_eq_false_iff_not, Int.not_lt]
    · exact Int.le_total _ _
    · exact Int.le_trans second first
  · have visited : (visits.clientServices name).Nodup := services.nodup_iff.mpr (AList.keys_nodup _)
    refine (map_perm_sortBy _ _ _).nodup_iff.mpr ?_
    rw [List.map_map]
    simpa [Function.comp_def] using visited
  · intro line
    have visited (service : GoString) : service ∈ visits.clientServices name ↔ ∃ l ∈ own, l.service = service := by
      rw [services.mem_iff, ← AList.mem_keys, (Tally.incr_counts Lookup.service).mem_foldl]
      simp
    have count (service : GoString) : (own.foldl ClientEntry.add {}).services.count service =
        own.countP (·.service = service) := by
      rw [services_foldl, (Tally.incr_counts Lookup.service).count_foldl]
      simp
    simp only [clientStat, entry, Server.mem_sortBy, List.mem_map, visited, count, lastInstance_foldl]
    constructor
    · rintro ⟨service, asked, rfl⟩
      exact ⟨asked, rfl, rfl⟩
    · rintro ⟨asked, counted, last⟩
      refine ⟨line.service, asked, ?_⟩
      rw [← counted, ← last]

/-- Whichever way the maps are visited, the dashboard of a node that recorded lookups shows their log. -/
theorem snapshot_shows {calls : List (Time × Lookup)} (visits : Visits (Collector.served calls)) {now : Int}
    (timely : Timely (recorded calls) now) {window span : Nat} (least : 0 < window)
    (windowBound : window ≤ ringSeconds) (spanBound : span ≤ ringSeconds) :
    ∃ s, snapshot visits now window span = some s ∧ Shows (recorded calls) now window span s := by
  revert visits
  rw [served_eq]
  generalize recorded calls = log at timely
  intro visits
  have line (name : GoString) := serviceStat_foldl timely least windowBound spanBound name
  choose stat there named describes using line
  have services : visits.services.mapM (serviceStat (log.foldl Collector.add {}) now window span) =
      some (visits.services.map stat) := by
    rw [funext there]
    exact List.mapM_pure
  have listed (name : GoString) : name ∈ visits.services ↔ ∃ l ∈ log, l.service = name := by
    rw [visits.allServices.mem_iff, ← AList.mem_keys, Collector.mem_svc]
  have clients (name : GoString) : name ∈ visits.clients ↔ name ≠ [] ∧ ∃ l ∈ log, l.client = name := by
    rw [visits.allClients.mem_iff, ← AList.mem_keys, Collector.mem_clients]
  have distinct : visits.services.Nodup := visits.allServices.nodup_iff.mpr (AList.keys_nodup _)
  have distinctClients : visits.clients.Nodup := visits.allClients.nodup_iff.mpr (AList.keys_nodup _)
  rw [snapshot, services]
  refine ⟨_, rfl, Collector.feed_foldl log, ?_, fun name => ?_, fun st member => ?_, ?_, ?_, fun name => ?_,
    fun st member => ?_⟩
  · refine servicesSorted ?_
    rw [List.map_map]
    have same : ServiceStat.service ∘ stat = id := funext named
    rwa [same, List.map_id]
  · simp only [Server.mem_sortBy, List.mem_map, ← listed]
    constructor
    · rintro ⟨_, ⟨name', visited, rfl⟩, rfl⟩
      rwa [named]
    · intro visited
      exact ⟨_, ⟨name, visited, rfl⟩, named name⟩
  · obtain ⟨name, -, rfl⟩ := List.mem_map.mp (Server.mem_sortBy.mp member)
    rw [named]
    exact describes name
  · refine sortBy_pairwise (fun a b => ?_) (fun a b => ?_) (fun a b c first second => ?_) _
    · rw [decide_eq_false_iff_not, Int.not_lt]
    · exact Int.le_total _ _
    · exact Int.le_trans second first
  · refine (map_perm_sortBy _ _ _).nodup_iff.mpr ?_
    rw [List.map_map]
    have same : ClientStat.name ∘ clientStat visits = id := rfl
    rwa [same, List.map_id]
  · simp only [Server.mem_sortBy, List.mem_map, ← clients]
    constructor
    · rintro ⟨_, ⟨name', visited, rfl⟩, rfl⟩
      exact visited
    · intro visited
      exact ⟨_, ⟨name, visited, rfl⟩, rfl⟩
  · obtain ⟨name, visited, rfl⟩ := List.mem_map.mp (Server.mem_sortBy.mp member)
    obtain ⟨given, seen⟩ := (clients name).mp visited
    exact clientStat_foldl visits given seen

/-- A named client's picks, and a lookup without a name a little late. -/
def someCalls : List (Time × Lookup) :=
  [(30000000000, { client := "web", service := "s", kind := .pick, count := 1, inst := "a" }),
    (31000000000, { service := "t", kind := .discover, count := 2 }),
    (30500000000, { client := "web", service := "s", kind := .pick, count := 1, inst := "b" })]

theorem snapshot_shows_some :
    ∃ s, snapshot (Visits.inOrder (Collector.served someCalls)) 32 (10 : Nat) (60 : Nat) = some s ∧
      Shows (recorded someCalls) 32 10 60 s :=
  snapshot_shows _ ⟨by decide, by decide, by decide, by decide⟩ (by decide) (by decide) (by decide)

end Stats
end Discovery
