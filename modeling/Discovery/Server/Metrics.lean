import Discovery.Exposition
import Discovery.Store.Catalog
import Discovery.Tally
import Mathlib.Data.List.Sort

namespace Discovery
namespace Server
open Exposition

/-- The kinds of discovery requests that are counted. -/
inductive LookupKind
  | discover
  | pick
  | tag
  deriving DecidableEq

def LookupKind.text : LookupKind → GoString
  | .discover => "discover"
  | .pick => "pick"
  | .tag => "tag"

/-- What the counters keep of one served lookup. -/
structure Lookup where
  service : GoString
  kind : LookupKind
  deriving DecidableEq

/-- The counters of each service. -/
abbrev Collector := AList fun _ : GoString => Tally LookupKind

def Collector.counts (c : Collector) (service : GoString) : Tally LookupKind := (c.lookup service).getD ∅

def Collector.record (c : Collector) (l : Lookup) : Collector :=
  c.insert l.service ((c.counts l.service).incr l.kind)

/-- The collector of a node that served the lookups. -/
def Collector.served (lookups : List Lookup) : Collector := lookups.foldl Collector.record ∅

structure SvKey where
  service : GoString
  version : GoString
  deriving DecidableEq

structure Sv2 where
  service : GoString
  status : GoString
  deriving DecidableEq

/-- The maps that the handler fills before it prints. -/
structure Gauges where
  up : Tally SvKey := ∅
  byStatus : Tally Sv2 := ∅
  blocked : Tally GoString := ∅

def countUp (up : Tally SvKey) (i : Instance) : Tally SvKey :=
  let k : SvKey := ⟨i.serviceName, i.version⟩
  let up := up.touch k
  if i.status = statusUp ∧ i.blocked = false then up.incr k else up

def countStatus (byStatus : Tally Sv2) (i : Instance) : Tally Sv2 := byStatus.incr ⟨i.serviceName, i.status⟩

def countBlocked (blocked : Tally GoString) (i : Instance) : Tally GoString :=
  if i.blocked then blocked.incr i.serviceName else blocked

def Gauges.add (g : Gauges) (i : Instance) : Gauges where
  up := countUp g.up i
  byStatus := countStatus g.byStatus i
  blocked := countBlocked g.blocked i

def gauges (insts : List Instance) : Gauges := insts.foldl Gauges.add {}

def sortBy {κ : Type} (less : κ → κ → Bool) (keys : List κ) : List κ := keys.insertionSort fun a b => !less b a

def sortedSV (m : Tally SvKey) : List SvKey :=
  sortBy (fun a b => if a.service ≠ b.service then a.service < b.service else a.version < b.version) m.keys

def sortedSV2 (m : Tally Sv2) : List Sv2 :=
  sortBy (fun a b => if a.service ≠ b.service then a.service < b.service else a.status < b.status) m.keys

def sortedKeys (m : Tally GoString) : List GoString := sortBy (fun a b => a < b) m.keys

def sortedKeys2 (m : Collector) : List GoString := sortBy (fun a b => a < b) m.keys

def sortedKinds (kinds : Tally LookupKind) : List LookupKind := sortBy (fun a b => a.text < b.text) kinds.keys

def upSample (k : SvKey) (n : Int) : Sample :=
  ⟨"discovery_up", [("service", k.service), ("version", k.version)], n⟩

def statusSample (k : Sv2) (n : Int) : Sample :=
  ⟨"discovery_instances", [("service", k.service), ("status", k.status)], n⟩

def blockedSample (service : GoString) (n : Int) : Sample :=
  ⟨"discovery_blocked", [("service", service)], n⟩

def requestSample (l : Lookup) (n : Int) : Sample :=
  ⟨"discovery_requests_total", [("service", l.service), ("kind", l.kind.text)], n⟩

def upSamples (up : Tally SvKey) : List Sample := (sortedSV up).map fun k => upSample k (up.count k)

def statusSamples (byStatus : Tally Sv2) : List Sample :=
  (sortedSV2 byStatus).map fun k => statusSample k (byStatus.count k)

def blockedSamples (blocked : Tally GoString) : List Sample :=
  (sortedKeys blocked).map fun service => blockedSample service (blocked.count service)

def requestSamples (totals : Collector) : List Sample :=
  (sortedKeys2 totals).flatMap fun service =>
    (sortedKinds (totals.counts service)).map fun kind =>
      requestSample ⟨service, kind⟩ ((totals.counts service).count kind)

def header (name help type : GoString) : GoString :=
  ofString "# HELP " ++ name ++ ofString " " ++ help ++ ofString "\n# TYPE " ++ name ++ ofString " " ++ type ++
    ofString "\n"

def family (table : Nat → Bool) (name help type : GoString) (samples : List Sample) : GoString :=
  header name help type ++ samples.flatMap (printSample table)

/-- One where the node runs without a cluster or knows of no member. -/
def clusterNodes : Option Nat → Int
  | none => 1
  | some n => if 0 < n then n else 1

def nodesLine (n : Int) : GoString := ofString "discovery_cluster_nodes" ++ 0x20 :: formatInt n ++ [0x0A]

/-- The body of `/metrics`. -/
def metrics (table : Nat → Bool) (st : Store) (totals : Collector) (members : Option Nat) : GoString :=
  let g := gauges st.listAllInstances
  family table "discovery_up" "Number of UP, non-blocked instances per service and version (cluster-wide)." "gauge"
    (upSamples g.up) ++
  family table "discovery_instances" "Number of instances per service and status (cluster-wide)." "gauge"
    (statusSamples g.byStatus) ++
  family table "discovery_blocked" "Number of operator-blocked instances per service (cluster-wide)." "gauge"
    (blockedSamples g.blocked) ++
  family table "discovery_requests_total" "Discovery lookups served by this node." "counter"
    (requestSamples totals) ++
  header "discovery_cluster_nodes" "Number of known cluster members (including self)." "gauge" ++
  nodesLine (clusterNodes members)

/-- One sample for each key of the items that are seen, with the number of the key's items that count. -/
def Tallied {ι κ : Type} [DecidableEq κ] (items : List ι) (key : ι → κ) (seen counted : ι → Bool)
    (sample : κ → Int → Sample) (s : Sample) : Prop :=
  ∃ i ∈ items, seen i = true ∧ s = sample (key i) (items.countP fun j => decide (key j = key i) && counted j)

/-- The samples of the name are the expected ones, each once. -/
def Reports (read : List Sample) (name : GoString) (expected : Sample → Prop) : Prop :=
  (read.filter (·.name = name)).Nodup ∧ ∀ s, s.name = name → (s ∈ read ↔ expected s)

structure Reported (insts : List Instance) (lookups : List Lookup) (read : List Sample) : Prop where
  up : Reports read "discovery_up" (Tallied insts (fun i => (⟨i.serviceName, i.version⟩ : SvKey)) (fun _ => true)
    (fun i => i.status = statusUp ∧ i.blocked = false) upSample)
  instances : Reports read "discovery_instances" (Tallied insts (fun i => (⟨i.serviceName, i.status⟩ : Sv2))
    (fun _ => true) (fun _ => true) statusSample)
  blocked : Reports read "discovery_blocked" (Tallied insts Instance.serviceName Instance.blocked Instance.blocked
    blockedSample)
  requests : Reports read "discovery_requests_total" (Tallied lookups id (fun _ => true) (fun _ => true)
    requestSample)

/-- The page reads, and every count is reported under the original labels. -/
def LabelsRoundTrip (table : Nat → Bool) (st : Store) (lookups : List Lookup) (members : Option Nat) : Prop :=
  ∃ read, samples (metrics table st (Collector.served lookups) members) = some read ∧
    Reported st.listAllInstances lookups read

/-- All labels consist of printable runes and newlines. -/
structure Legible (table : Nat → Bool) (insts : List Instance) (lookups : List Lookup) : Prop where
  instances : ∀ i ∈ insts, legible table i.serviceName = true ∧ legible table i.version = true ∧
    legible table i.status = true
  requests : ∀ l ∈ lookups, legible table l.service = true

theorem mem_sortBy {κ : Type} {less : κ → κ → Bool} {keys : List κ} {k : κ} : k ∈ sortBy less keys ↔ k ∈ keys :=
  List.mem_insertionSort _

theorem nodup_sortBy {κ : Type} {less : κ → κ → Bool} {keys : List κ} (nodup : keys.Nodup) :
    (sortBy less keys).Nodup :=
  (List.perm_insertionSort _ _).nodup_iff.mpr nodup

/-- Every instance makes a line of its service and version, and is counted there when it is up and not blocked. -/
theorem countUp_counts : Tally.Counts countUp (fun i => (⟨i.serviceName, i.version⟩ : SvKey)) (fun _ => true)
    (fun i => i.status = statusUp ∧ i.blocked = false) where
  value m i k := by
    rw [countUp]
    split
    next up => simp [Tally.count_incr, Tally.count_touch, up]
    next down => simp [Tally.count_touch, down]
  keys m i k := by
    rw [countUp]
    split <;> simp [Tally.mem_incr, Tally.mem_touch, eq_comm]

/-- Every instance is counted under its service and status. -/
theorem countStatus_counts : Tally.Counts countStatus (fun i => (⟨i.serviceName, i.status⟩ : Sv2)) (fun _ => true)
    (fun _ => true) where
  value m i k := by simp [countStatus, Tally.count_incr]
  keys m i k := by simp [countStatus, Tally.mem_incr, eq_comm]

/-- Only blocked instances make a line of their service, so that a service without one has none. -/
theorem countBlocked_counts :
    Tally.Counts countBlocked Instance.serviceName Instance.blocked Instance.blocked where
  value m i k := by
    rw [countBlocked]
    split
    next blocked => simp [Tally.count_incr, blocked]
    next open_ => simp [open_]
  keys m i k := by
    rw [countBlocked]
    split
    next blocked => simp [Tally.mem_incr, blocked, eq_comm]
    next open_ => simp [open_]

/-- The one loop over the instances fills each of its three maps as a loop of its own would. -/
theorem gauges_up (insts : List Instance) : (gauges insts).up = insts.foldl countUp ∅ :=
  (List.foldl_hom Gauges.up fun _ _ => rfl).symm

theorem gauges_byStatus (insts : List Instance) : (gauges insts).byStatus = insts.foldl countStatus ∅ :=
  (List.foldl_hom Gauges.byStatus fun _ _ => rfl).symm

theorem gauges_blocked (insts : List Instance) : (gauges insts).blocked = insts.foldl countBlocked ∅ :=
  (List.foldl_hom Gauges.blocked fun _ _ => rfl).symm

/-- A loop over the items and one over its keys print a sample for each key. -/
theorem mem_tallied {ι κ : Type} [DecidableEq κ] {step : Tally κ → ι → Tally κ} {key : ι → κ}
    {seen counted : ι → Bool} (counts : Tally.Counts step key seen counted) (items : List ι)
    (less : κ → κ → Bool) (sample : κ → Int → Sample) (s : Sample) :
    s ∈ (sortBy less (items.foldl step ∅).keys).map (fun k => sample k ((items.foldl step ∅).count k)) ↔
      Tallied items key seen counted sample s := by
  simp only [List.mem_map, mem_sortBy, ← AList.mem_keys, counts.mem_foldl, counts.count_foldl, AList.notMem_empty,
    or_false, Tally.count_empty, Int.zero_add]
  constructor
  · rintro ⟨_, ⟨i, member, rfl, counted⟩, rfl⟩
    exact ⟨i, member, counted, rfl⟩
  · rintro ⟨i, member, counted, rfl⟩
    exact ⟨key i, ⟨i, member, rfl, counted⟩, rfl⟩

/-- A sample of `discovery_instances_up` is one of a service and version that some instance has, with the number
of those that are up and not blocked. The three lemmas of this form say what each family prints. -/
theorem mem_upSamples (insts : List Instance) (s : Sample) : s ∈ upSamples (gauges insts).up ↔
    Tallied insts (fun i => (⟨i.serviceName, i.version⟩ : SvKey)) (fun _ => true)
      (fun i => i.status = statusUp ∧ i.blocked = false) upSample s := by
  rw [upSamples, gauges_up]
  exact mem_tallied countUp_counts insts _ upSample s

theorem mem_statusSamples (insts : List Instance) (s : Sample) : s ∈ statusSamples (gauges insts).byStatus ↔
    Tallied insts (fun i => (⟨i.serviceName, i.status⟩ : Sv2)) (fun _ => true) (fun _ => true) statusSample s := by
  rw [statusSamples, gauges_byStatus]
  exact mem_tallied countStatus_counts insts _ statusSample s

theorem mem_blockedSamples (insts : List Instance) (s : Sample) : s ∈ blockedSamples (gauges insts).blocked ↔
    Tallied insts Instance.serviceName Instance.blocked Instance.blocked blockedSample s := by
  rw [blockedSamples, gauges_blocked]
  exact mem_tallied countBlocked_counts insts _ blockedSample s

/-- The keys of the map are distinct and so are the labels made of them: no family prints a line twice. -/
theorem nodup_upSamples (up : Tally SvKey) : (upSamples up).Nodup := by
  refine (nodup_sortBy (AList.keys_nodup up)).map fun k k' same => ?_
  have labels : k.service = k'.service ∧ k.version = k'.version := by
    simpa [upSample] using congrArg Sample.labels same
  obtain ⟨service, version⟩ := k
  obtain ⟨rfl, rfl⟩ := labels
  rfl

theorem nodup_statusSamples (byStatus : Tally Sv2) : (statusSamples byStatus).Nodup := by
  refine (nodup_sortBy (AList.keys_nodup byStatus)).map fun k k' same => ?_
  have labels : k.service = k'.service ∧ k.status = k'.status := by
    simpa [statusSample] using congrArg Sample.labels same
  obtain ⟨service, status⟩ := k
  obtain ⟨rfl, rfl⟩ := labels
  rfl

theorem nodup_blockedSamples (blocked : Tally GoString) : (blockedSamples blocked).Nodup := by
  refine (nodup_sortBy (AList.keys_nodup blocked)).map fun service service' same => ?_
  simpa [blockedSample] using congrArg Sample.labels same

/-- A recorded lookup counts for its own service and leaves the counters of the others. -/
theorem Collector.counts_record (c : Collector) (l : Lookup) (service : GoString) :
    (c.record l).counts service =
      if l.service = service then (c.counts service).incr l.kind else c.counts service := by
  split
  next same =>
    subst same
    rw [Collector.counts, Collector.record, AList.lookup_insert]
    rfl
  next other => rw [Collector.counts, Collector.record, AList.lookup_insert_ne (Ne.symm other), Collector.counts]

/-- After any number of lookups a service has counted its own, kind by kind. -/
theorem Collector.counts_foldl (lookups : List Lookup) (c : Collector) (service : GoString) :
    (lookups.foldl Collector.record c).counts service =
      lookups.foldl (fun m l => if l.service = service then m.incr l.kind else m) (c.counts service) := by
  induction lookups generalizing c with
  | nil => rfl
  | cons l lookups ih => rw [List.foldl_cons, List.foldl_cons, ih, Collector.counts_record]

theorem Collector.mem_foldl (lookups : List Lookup) (c : Collector) (service : GoString) :
    service ∈ lookups.foldl Collector.record c ↔ (∃ l ∈ lookups, l.service = service) ∨ service ∈ c := by
  induction lookups generalizing c with
  | nil => simp
  | cons l lookups ih =>
    rw [List.foldl_cons, ih, Collector.record, AList.mem_insert, List.exists_mem_cons_iff, or_assoc, or_left_comm,
      eq_comm (a := service)]

theorem lookup_counts (service : GoString) :
    Tally.Counts (fun (m : Tally LookupKind) (l : Lookup) => if l.service = service then m.incr l.kind else m)
      Lookup.kind (fun l => l.service = service) (fun l => l.service = service) where
  value m l k := by
    split
    next same => simp [Tally.count_incr, same]
    next other => simp [other]
  keys m l k := by
    split
    next same => simp [Tally.mem_incr, same, eq_comm]
    next other => simp [other]

/-- A sample of the request counter is one of a service and kind that were looked up, with the number of those
lookups. -/
theorem mem_requestSamples (lookups : List Lookup) (s : Sample) :
    s ∈ requestSamples (Collector.served lookups) ↔
      Tallied lookups id (fun _ => true) (fun _ => true) requestSample s := by
  have counts (service : GoString) : (Collector.served lookups).counts service =
      lookups.foldl (fun m l => if l.service = service then m.incr l.kind else m) ∅ :=
    Collector.counts_foldl lookups ∅ service
  simp only [requestSamples, List.mem_flatMap, List.mem_map, sortedKeys2, sortedKinds, mem_sortBy, ← AList.mem_keys,
    counts, (lookup_counts _).mem_foldl, (lookup_counts _).count_foldl, AList.notMem_empty, or_false,
    Tally.count_empty, Int.zero_add]
  have served (service : GoString) : service ∈ Collector.served lookups ↔ ∃ l ∈ lookups, l.service = service := by
    rw [Collector.served, Collector.mem_foldl, or_iff_left (AList.notMem_empty _)]
  have number (l : Lookup) : (fun j : Lookup => decide (j.kind = l.kind) && decide (j.service = l.service)) =
      fun j : Lookup => decide (id j = id l) && true := by
    funext j
    obtain ⟨service, kind⟩ := j
    obtain ⟨service', kind'⟩ := l
    simp [and_comm]
  constructor
  · rintro ⟨_, _, _, ⟨l, member, rfl, here⟩, rfl⟩
    obtain rfl := of_decide_eq_true here
    exact ⟨l, member, rfl, by rw [number, id]⟩
  · rintro ⟨l, member, _, rfl⟩
    exact ⟨l.service, (served _).mpr ⟨l, member, rfl⟩, l.kind, ⟨l, member, rfl, decide_eq_true rfl⟩,
      by rw [number, id]⟩

/-- The kinds are told apart by their label values. -/
theorem LookupKind.text_injective : Function.Injective LookupKind.text := by
  intro kind kind' same
  cases kind <;> cases kind' <;> first | rfl | exact absurd same (by decide)

theorem nodup_requestSamples (totals : Collector) : (requestSamples totals).Nodup := by
  rw [requestSamples, List.nodup_flatMap]
  constructor
  · intro service _
    refine (nodup_sortBy (AList.keys_nodup _)).map fun kind kind' same => ?_
    have texts : kind.text = kind'.text := by simpa [requestSample] using (congrArg Sample.labels same)
    exact LookupKind.text_injective texts
  · have keys : (sortedKeys2 totals).Nodup := nodup_sortBy (AList.keys_nodup _)
    refine keys.imp fun different s here there => ?_
    obtain ⟨_, _, rfl⟩ := List.mem_map.mp here
    obtain ⟨_, _, same⟩ := List.mem_map.mp there
    have services := congrArg Sample.labels same
    simp only [requestSample, List.cons.injEq, Prod.mk.injEq, true_and] at services
    exact different services.1.symm

/-- In a comment the reader stays until the end of the line. -/
theorem scan_comment {r : Reader} (mode : r.mode = .comment) {s : GoString} (line : 0x0A ∉ s) : scan r s = r := by
  induction s with
  | nil => rfl
  | cons b s ih =>
    rw [List.mem_cons, not_or] at line
    have here : r.step b = r := by
      rw [Reader.step, mode]
      exact if_neg (Ne.symm line.1)
    rw [scan_cons, here, ih line.2]

/-- The help and type lines of a family are skipped, as long as no line end stands in them. -/
theorem scan_header {r : Reader} (mode : r.mode = .line) (name help type : GoString) (names : 0x0A ∉ name)
    (helps : 0x0A ∉ help) (types : 0x0A ∉ type) : scan r (header name help type) = r := by
  obtain ⟨_, samples, metric, labels, label, value, number⟩ := r
  obtain rfl : _ = Mode.line := mode
  have inside (s : GoString) (line : 0x0A ∉ s) :
      scan ⟨.comment, samples, metric, labels, label, value, number⟩ s =
        ⟨.comment, samples, metric, labels, label, value, number⟩ := scan_comment rfl line
  have helpStart : scan ⟨.line, samples, metric, labels, label, value, number⟩ (ofString "# HELP ") =
      ⟨.comment, samples, metric, labels, label, value, number⟩ := rfl
  have typeStart : scan ⟨.comment, samples, metric, labels, label, value, number⟩ (ofString "\n# TYPE ") =
      ⟨.comment, samples, metric, labels, label, value, number⟩ := rfl
  have blank : scan ⟨.comment, samples, metric, labels, label, value, number⟩ (ofString " ") =
      ⟨.comment, samples, metric, labels, label, value, number⟩ := rfl
  simp only [header, scan_append, helpStart, typeStart, blank, inside name names, inside help helps,
    inside type types]
  rfl

/-- A sample that the page can print. -/
def Printable (s : Sample) : Prop := isWord s.name = true ∧ s.labels ≠ [] ∧ ∀ l ∈ s.labels, isWord l.1 = true

/-- Read from the start of a line, printed samples come back in their order, each with the label values as the
format reads them, and the reader stands at the start of a line again. -/
theorem scan_printSamples (table : Nat → Bool) {written : List Sample} (printable : ∀ s ∈ written, Printable s)
    {r : Reader} (mode : r.mode = .line) :
    (scan r (written.flatMap (printSample table))).mode = .line ∧
      (scan r (written.flatMap (printSample table))).samples = r.samples ++ written.map (rereadSample table) := by
  induction written generalizing r with
  | nil => simp [mode]
  | cons s written ih =>
    obtain ⟨name, nonempty, named⟩ := printable s List.mem_cons_self
    obtain ⟨ended, first⟩ := scan_printSample table name nonempty named mode
    obtain ⟨done, rest⟩ := ih (fun t member => printable t (List.mem_cons_of_mem s member)) ended
    rw [List.flatMap_cons, scan_append]
    exact ⟨done, by rw [rest, first, List.append_assoc]; rfl⟩

/-- A family is read as its samples: the header adds nothing. -/
theorem scan_family (table : Nat → Bool) (name help type : GoString) (names : 0x0A ∉ name) (helps : 0x0A ∉ help)
    (types : 0x0A ∉ type) {written : List Sample} (printable : ∀ s ∈ written, Printable s)
    {r : Reader} (mode : r.mode = .line) :
    (scan r (family table name help type written)).mode = .line ∧
      (scan r (family table name help type written)).samples = r.samples ++ written.map (rereadSample table) := by
  rw [family, scan_append, scan_header mode name help type names helps types]
  exact scan_printSamples table printable mode

/-- The names of metrics and labels are fixed texts that the format reads as they stand; only the values come from
the store. -/
theorem printable_upSample (k : SvKey) (n : Int) : Printable (upSample k n) := by
  simp [Printable, upSample]
  decide

theorem printable_statusSample (k : Sv2) (n : Int) : Printable (statusSample k n) := by
  simp [Printable, statusSample]
  decide

theorem printable_blockedSample (service : GoString) (n : Int) : Printable (blockedSample service n) := by
  simp [Printable, blockedSample]
  decide

theorem printable_requestSample (l : Lookup) (n : Int) : Printable (requestSample l n) := by
  simp [Printable, requestSample]
  decide

/-- The last line, which has no labels, is read as one sample. -/
theorem scan_nodesLine {r : Reader} (mode : r.mode = .line) (n : Int) :
    (scan r (nodesLine n)).mode = .line ∧
      (scan r (nodesLine n)).samples = r.samples ++ [⟨"discovery_cluster_nodes", [], n⟩] := by
  have named : isWord (ofString "discovery_cluster_nodes") = true := by decide
  have name := scan_metric mode named
  have digits := scan_number (s := formatInt n)
    (r := { r with mode := .number, name := "discovery_cluster_nodes", labels := [], number := [] }) rfl
    fun b member => formatInt_bytes member
  have line : scan r (nodesLine n) =
      scan { r with mode := .number, name := "discovery_cluster_nodes", labels := [], number := formatInt n }
        [0x0A] := by
    rw [nodesLine, scan_append, scan_append, name]
    exact congrArg (scan · [0x0A]) digits
  rw [line]
  refine ⟨rfl, ?_⟩
  show r.samples ++ [⟨_, _, readRevision (formatInt n)⟩] = _
  rw [readRevision_formatInt]

/-- The samples of the page, in its order. -/
def printed (insts : List Instance) (totals : Collector) : List Sample :=
  upSamples (gauges insts).up ++ statusSamples (gauges insts).byStatus ++ blockedSamples (gauges insts).blocked ++
    requestSamples totals

/-- The whole page is read without an error, as the printed samples with their label values reread and the size of
the cluster at the end. -/
theorem samples_metrics (table : Nat → Bool) (st : Store) (totals : Collector) (members : Option Nat) :
    samples (metrics table st totals members) =
      some ((printed st.listAllInstances totals).map (rereadSample table) ++
        [⟨"discovery_cluster_nodes", [], clusterNodes members⟩]) := by
  have upPrintable : ∀ s ∈ upSamples (gauges st.listAllInstances).up, Printable s := by
    intro s member
    obtain ⟨k, _, rfl⟩ := List.mem_map.mp member
    exact printable_upSample k _
  have statusPrintable : ∀ s ∈ statusSamples (gauges st.listAllInstances).byStatus, Printable s := by
    intro s member
    obtain ⟨k, _, rfl⟩ := List.mem_map.mp member
    exact printable_statusSample k _
  have blockedPrintable : ∀ s ∈ blockedSamples (gauges st.listAllInstances).blocked, Printable s := by
    intro s member
    obtain ⟨k, _, rfl⟩ := List.mem_map.mp member
    exact printable_blockedSample k _
  have requestPrintable : ∀ s ∈ requestSamples totals, Printable s := by
    intro s member
    obtain ⟨service, _, here⟩ := List.mem_flatMap.mp member
    obtain ⟨kind, _, rfl⟩ := List.mem_map.mp here
    exact printable_requestSample _ _
  have up := scan_family table "discovery_up"
    "Number of UP, non-blocked instances per service and version (cluster-wide)." "gauge"
    (by decide) (by decide +kernel) (by decide) upPrintable (r := {}) rfl
  have instances := scan_family table "discovery_instances"
    "Number of instances per service and status (cluster-wide)." "gauge"
    (by decide) (by decide +kernel) (by decide) statusPrintable up.1
  have blocked := scan_family table "discovery_blocked"
    "Number of operator-blocked instances per service (cluster-wide)." "gauge"
    (by decide) (by decide +kernel) (by decide) blockedPrintable instances.1
  have requests := scan_family table "discovery_requests_total" "Discovery lookups served by this node." "counter"
    (by decide) (by decide +kernel) (by decide) requestPrintable blocked.1
  have title := scan_header requests.1 "discovery_cluster_nodes" "Number of known cluster members (including self)."
    "gauge" (by decide) (by decide +kernel) (by decide)
  have nodes := scan_nodesLine requests.1 (clusterNodes members)
  simp only [samples, metrics, scan_append, title]
  rw [if_pos nodes.1, nodes.2, requests.2, blocked.2, instances.2, up.2]
  simp only [printed, List.map_append, List.nil_append]

/-- Whatever the store holds, a value that is read back from the page is made of printable runes and newlines
only. -/
theorem legible_of_read {table : Nat → Bool} {st : Store} {totals : Collector} {members : Option Nat}
    {read : List Sample} (page : samples (metrics table st totals members) = some read) {s : Sample}
    (member : s ∈ read) : ∀ l ∈ s.labels, legible table l.2 = true := by
  rw [samples_metrics] at page
  obtain rfl := Option.some.inj page
  rcases List.mem_append.mp member with counted | nodes
  · obtain ⟨s, _, rfl⟩ := List.mem_map.mp counted
    intro l label
    obtain ⟨l, _, rfl⟩ := List.mem_map.mp label
    exact legible_reread table l.2
  · rw [List.mem_singleton.mp nodes]
    intro l label
    cases label

/-- A reported label has no rune that the reader takes for anything else. -/
theorem LabelsRoundTrip.legible {table : Nat → Bool} {st : Store} {lookups : List Lookup} {members : Option Nat}
    (roundTrip : LabelsRoundTrip table st lookups members) : Legible table st.listAllInstances lookups := by
  obtain ⟨read, page, up, instances, _, requests⟩ := roundTrip
  constructor
  · intro i member
    have version := legible_of_read page ((up.2 _ rfl).mpr ⟨i, member, rfl, rfl⟩)
    have status := legible_of_read page ((instances.2 _ rfl).mpr ⟨i, member, rfl, rfl⟩)
    exact ⟨version (ofString "service", i.serviceName) (by simp [upSample]),
      version (ofString "version", i.version) (by simp [upSample]),
      status (ofString "status", i.status) (by simp [statusSample])⟩
  · intro l member
    have labels := legible_of_read page ((requests.2 _ rfl).mpr ⟨l, member, rfl, rfl⟩)
    exact labels (ofString "service", l.service) (by simp [requestSample])

/-- The samples of one name among those of others. -/
theorem reports_part {before part after : List Sample} {name : GoString} {expected : Sample → Prop}
    (nodup : part.Nodup) (spec : ∀ s, s ∈ part ↔ expected s) (named : ∀ s ∈ part, s.name = name)
    (earlier : ∀ s ∈ before, s.name ≠ name) (later : ∀ s ∈ after, s.name ≠ name) :
    Reports (before ++ (part ++ after)) name expected := by
  constructor
  · have none (l : List Sample) (others : ∀ s ∈ l, s.name ≠ name) : l.filter (·.name = name) = [] :=
      List.filter_eq_nil_iff.mpr fun s member => by simpa using others s member
    have all : part.filter (·.name = name) = part :=
      List.filter_eq_self.mpr fun s member => by simpa using named s member
    rw [List.filter_append, List.filter_append, none before earlier, none after later, all, List.nil_append,
      List.append_nil]
    exact nodup
  · intro s here
    rw [List.mem_append, List.mem_append, ← spec]
    constructor
    · rintro (member | member | member)
      · exact absurd here (earlier s member)
      · exact member
      · exact absurd here (later s member)
    · exact fun member => Or.inr (Or.inl member)

/-- Every printed sample belongs to an instance or to a recorded lookup. -/
theorem mem_printed {insts : List Instance} {lookups : List Lookup} {s : Sample}
    (member : s ∈ printed insts (Collector.served lookups)) :
    (∃ i ∈ insts, ∃ n, s = upSample ⟨i.serviceName, i.version⟩ n ∨ s = statusSample ⟨i.serviceName, i.status⟩ n ∨
      s = blockedSample i.serviceName n) ∨ ∃ l ∈ lookups, ∃ n, s = requestSample l n := by
  rw [printed, List.append_assoc, List.append_assoc, List.mem_append, List.mem_append, List.mem_append] at member
  rcases member with up | status | blocked | request
  · obtain ⟨i, member, _, rfl⟩ := (mem_upSamples insts s).mp up
    exact Or.inl ⟨i, member, _, Or.inl rfl⟩
  · obtain ⟨i, member, _, rfl⟩ := (mem_statusSamples insts s).mp status
    exact Or.inl ⟨i, member, _, Or.inr (Or.inl rfl)⟩
  · obtain ⟨i, member, _, rfl⟩ := (mem_blockedSamples insts s).mp blocked
    exact Or.inl ⟨i, member, _, Or.inr (Or.inr rfl)⟩
  · obtain ⟨l, member, _, rfl⟩ := (mem_requestSamples lookups s).mp request
    exact Or.inr ⟨l, member, _, rfl⟩

/-- Where all names are legible nothing is changed by printing and reading. -/
theorem reread_printed {table : Nat → Bool} {insts : List Instance} {lookups : List Lookup}
    (clean : Legible table insts lookups) :
    (printed insts (Collector.served lookups)).map (rereadSample table) =
      printed insts (Collector.served lookups) := by
  refine (List.map_congr_left fun s member => ?_).trans (List.map_id _)
  rcases mem_printed member with ⟨i, here, n, rfl | rfl | rfl⟩ | ⟨l, here, n, rfl⟩
  · obtain ⟨service, version, _⟩ := clean.instances i here
    simp [rereadSample, upSample, reread_of_legible service, reread_of_legible version]
  · obtain ⟨service, _, status⟩ := clean.instances i here
    simp [rereadSample, statusSample, reread_of_legible service, reread_of_legible status]
  · obtain ⟨service, _, _⟩ := clean.instances i here
    simp [rereadSample, blockedSample, reread_of_legible service]
  · have kind : legible table l.kind.text = true := by cases l.kind <;> rfl
    simp [rereadSample, requestSample, reread_of_legible (clean.requests l here), reread_of_legible kind]

theorem Named.other {part : List Sample} {name other : GoString} (named : ∀ s ∈ part, s.name = name)
    (different : name ≠ other) : ∀ s ∈ part, s.name ≠ other := fun s member same =>
  different ((named s member).symm.trans same)

/-- The printed samples are a full report: of each family exactly the lines that the instances and the lookups ask
for, each once. -/
theorem reported_printed (insts : List Instance) (lookups : List Lookup) (nodes : Int) :
    Reported insts lookups
      (printed insts (Collector.served lookups) ++ [⟨"discovery_cluster_nodes", [], nodes⟩]) := by
  have up (s : Sample) (member : s ∈ upSamples (gauges insts).up) : s.name = ofString "discovery_up" := by
    obtain ⟨k, _, rfl⟩ := List.mem_map.mp member
    rfl
  have status (s : Sample) (member : s ∈ statusSamples (gauges insts).byStatus) :
      s.name = ofString "discovery_instances" := by
    obtain ⟨k, _, rfl⟩ := List.mem_map.mp member
    rfl
  have blocked (s : Sample) (member : s ∈ blockedSamples (gauges insts).blocked) :
      s.name = ofString "discovery_blocked" := by
    obtain ⟨k, _, rfl⟩ := List.mem_map.mp member
    rfl
  have request (s : Sample) (member : s ∈ requestSamples (Collector.served lookups)) :
      s.name = ofString "discovery_requests_total" := by
    obtain ⟨l, _, _, rfl⟩ := (mem_requestSamples lookups s).mp member
    rfl
  have last (s : Sample) (member : s ∈ [(⟨"discovery_cluster_nodes", [], nodes⟩ : Sample)]) :
      s.name = ofString "discovery_cluster_nodes" := by
    rw [List.mem_singleton.mp member]
  have none (other : GoString) (s : Sample) (member : s ∈ ([] : List Sample)) : s.name ≠ other := by cases member
  have both {l l' : List Sample} {other : GoString} (first : ∀ s ∈ l, s.name ≠ other)
      (second : ∀ s ∈ l', s.name ≠ other) (s : Sample) (member : s ∈ l ++ l') : s.name ≠ other := by
    rcases List.mem_append.mp member with here | there
    · exact first s here
    · exact second s there
  simp only [printed, List.append_assoc]
  constructor
  · rw [← List.nil_append (upSamples _ ++ _)]
    exact reports_part (nodup_upSamples _) (mem_upSamples insts) up (none _)
      (both (Named.other status (by decide)) (both (Named.other blocked (by decide))
        (both (Named.other request (by decide)) (Named.other last (by decide)))))
  · exact reports_part (nodup_statusSamples _) (mem_statusSamples insts) status (Named.other up (by decide))
      (both (Named.other blocked (by decide)) (both (Named.other request (by decide)) (Named.other last (by decide))))
  · rw [← List.append_assoc]
    exact reports_part (nodup_blockedSamples _) (mem_blockedSamples insts) blocked
      (both (Named.other up (by decide)) (Named.other status (by decide)))
      (both (Named.other request (by decide)) (Named.other last (by decide)))
  · rw [← List.append_assoc, ← List.append_assoc]
    exact reports_part (nodup_requestSamples _) (mem_requestSamples lookups) request
      (both (both (Named.other up (by decide)) (Named.other status (by decide))) (Named.other blocked (by decide)))
      (Named.other last (by decide))

/-- The labels come back exactly where they consist of printable runes and newlines: `%q` has escapes of its own
for everything else. -/
theorem labelsRoundTrip_iff (table : Nat → Bool) (st : Store) (lookups : List Lookup) (members : Option Nat) :
    LabelsRoundTrip table st lookups members ↔ Legible table st.listAllInstances lookups := by
  refine ⟨LabelsRoundTrip.legible, fun clean => ⟨_, samples_metrics table st _ members, ?_⟩⟩
  rw [reread_printed clean]
  exact reported_printed st.listAllInstances lookups (clusterNodes members)

/-- A version with a tab in it. -/
def tabbed : Instance where
  id := "a"
  serviceName := "s"
  address := "10.0.0.1"
  version := [0x31, 0x09, 0x32]
  weight := 1
  status := statusUp

/-- The tab comes back as a backslash and a `t`. -/
theorem tab_misread : ¬∀ (table : Nat → Bool) (ops : List CatalogOp) (lookups : List Lookup) (members : Option Nat),
    LabelsRoundTrip table (ops.foldl (fun st op => (st.catalogStep op).1) Store.empty) lookups members := by
  intro roundTrip
  have clean := (roundTrip (fun _ => true) [.putInstance 0 tabbed] [] none).legible
  have lost := (clean.instances tabbed (by decide +kernel)).2.1
  exact absurd lost (by decide)

end Server
end Discovery
