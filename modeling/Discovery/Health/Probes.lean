import Discovery.Server.Addresses

namespace Discovery
open Kv Url

/-- `net.JoinHostPort`. -/
def joinHostPort (host port : GoString) : GoString :=
  if 0x3A ∈ host then 0x5B :: host ++ 0x5D :: 0x3A :: port else host ++ 0x3A :: port

namespace Health

/-- What the network answers when the loop over the interfaces is at the `n`-th of them: to a connection to an
address, and to a request for a URL. `latency` are the milliseconds the probe takes. -/
structure Answers where
  dial : Nat → GoString → Except GoString Unit
  get : Nat → GoString → Except GoString Int
  latency : Nat → Int

def probeTCP (host : GoString) (port : Int) (dial : GoString → Except GoString Unit) (latency : Int) : ProbeResult :=
  let addr := joinHostPort host (formatInt port)
  let url := ofString "tcp://" ++ addr
  match dial addr with
  | .error error => { interface := [], url, ok := false, error, latencyMS := latency }
  | .ok () => { interface := [], url, ok := true, latencyMS := latency }

/-- The status codes that pass. -/
def passing (code : Int) : Bool := 200 ≤ code && code < 400

def probeHTTP (host : GoString) (it : Interface) (get : GoString → Except GoString Int) (latency : Int) :
    ProbeResult :=
  let url := buildProbeURL host it
  if url = [] then { interface := [], url, ok := false, error := "could not build probe URL" }
  else match get url with
    | .error error => { interface := [], url, ok := false, error, latencyMS := latency }
    | .ok code =>
      { interface := [], url, ok := passing code, httpStatus := code, latencyMS := latency
        error := if passing code then [] else ofString "HTTP " ++ formatInt code }

def webProtocols : List GoString := ["http", "https", "ws", "wss"]

def httpish (it : Interface) : Bool := toLower it.protocol ∈ webProtocols

/-- The variables of the loops over the interfaces. -/
structure Sweep where
  results : List ProbeResult := []
  allOK : Bool := true
  any : Bool := false

def Sweep.add (s : Sweep) (r : ProbeResult) : Sweep where
  results := s.results ++ [r]
  allOK := s.allOK && r.ok
  any := true

/-- The loop over the interfaces that are wanted. Results carry the interface's name. -/
def sweepInterfaces (wanted : Interface → Bool) (probe : Interface → Nat → ProbeResult)
    (interfaces : List Interface) : Sweep :=
  interfaces.zipIdx.foldl (fun s (it, n) => if wanted it then s.add { probe it n with interface := it.name } else s) {}

def nothingToProbe (error : GoString) : ProbeResult := { interface := "(none)", ok := false, error }

def checkHTTPAll (answers : Answers) (inst : Instance) : Bool × List ProbeResult :=
  let s := sweepInterfaces httpish (fun it n => probeHTTP inst.address it (answers.get n) (answers.latency n))
    inst.interfaces
  if !s.any then (false, [nothingToProbe "no HTTP-ish interfaces to probe"]) else (s.allOK, s.results)

def checkTCPAll (answers : Answers) (inst : Instance) : Bool × List ProbeResult :=
  if inst.interfaces.length = 0 then (false, [nothingToProbe "no interfaces to probe"])
  else
    let s := sweepInterfaces (fun _ => true)
      (fun it n => probeTCP inst.address it.port (answers.dial n) (answers.latency n)) inst.interfaces
    (s.allOK, s.results)

/-- Whether the instance passes, and the report of its interfaces. -/
def checkInstance (now : Time) (answers : Answers) (inst : Instance) : Bool × List ProbeResult :=
  let mode := inst.effectiveCheckMode
  if mode = checkHTTP then checkHTTPAll answers inst
  else if mode = checkTCP then checkTCPAll answers inst
  else if mode = checkHeartbeat then
    let ok := !inst.expired now
    (ok, [{ interface := "heartbeat", ok, error := if ok then [] else "heartbeat TTL expired" }])
  else if mode = checkNone then (true, [{ interface := "none", ok := true }])
  else (true, [])

/-- There is an interface to probe, and each one answers as it should at the URL or the address that the
instance gives for it. -/
def Passes (answers : Answers) (inst : Instance) : Prop :=
  if inst.effectiveCheckMode = checkHTTP then
    (∃ it ∈ inst.interfaces, httpish it) ∧ ∀ n it, inst.interfaces[n]? = some it → httpish it →
      ∃ code, answers.get n (buildProbeURL inst.address it) = .ok code ∧ passing code
  else inst.interfaces ≠ [] ∧ ∀ n it, inst.interfaces[n]? = some it →
    answers.dial n (joinHostPort inst.address (formatInt it.port)) = .ok ()

/-- The checker probes the interfaces of the instance. -/
def Probed (inst : Instance) : Prop :=
  inst.effectiveCheckMode = checkHTTP ∨ inst.effectiveCheckMode = checkTCP

instance (inst : Instance) : Decidable (Probed inst) := inferInstanceAs (Decidable (_ ∨ _))

theorem buildProbeURL_ne_nil (host : GoString) (it : Interface) : buildProbeURL host it ≠ [] := by
  rw [buildProbeURL]
  split
  next custom => exact custom.1
  next => split <;> cases it.secure <;> simp [webScheme, ofString]

theorem probeHTTP_ok {host : GoString} {it : Interface} {get : GoString → Except GoString Int} {latency : Int} :
    (probeHTTP host it get latency).ok = true ↔
      ∃ code, get (buildProbeURL host it) = .ok code ∧ passing code = true := by
  cases answer : get (buildProbeURL host it) <;> simp [probeHTTP, buildProbeURL_ne_nil, answer]

theorem probeTCP_ok {host : GoString} {port : Int} {dial : GoString → Except GoString Unit} {latency : Int} :
    (probeTCP host port dial latency).ok = true ↔ dial (joinHostPort host (formatInt port)) = .ok () := by
  cases answer : dial (joinHostPort host (formatInt port)) <;> simp [probeTCP, answer]

/-- The loop keeps the results of the wanted interfaces in order, and whether all of them are good. -/
theorem sweepInterfaces_eq (wanted : Interface → Bool) (probe : Interface → Nat → ProbeResult)
    (interfaces : List Interface) :
    let probed := interfaces.zipIdx.filter fun e => wanted e.1
    sweepInterfaces wanted probe interfaces =
      { results := probed.map fun e => { probe e.1 e.2 with interface := e.1.name }
        allOK := probed.all fun e => (probe e.1 e.2).ok
        any := !probed.isEmpty } := by
  intro probed
  suffices loop : ∀ (entries : List (Interface × Nat)) (s : Sweep),
      entries.foldl (fun s (it, n) => if wanted it then s.add { probe it n with interface := it.name } else s) s =
        { results := s.results ++ (entries.filter fun e => wanted e.1).map fun e =>
            { probe e.1 e.2 with interface := e.1.name }
          allOK := s.allOK && (entries.filter fun e => wanted e.1).all fun e => (probe e.1 e.2).ok
          any := s.any || !(entries.filter fun e => wanted e.1).isEmpty } by
    rw [sweepInterfaces, loop]
    simp [probed]
  intro entries
  induction entries with
  | nil => intro s; simp
  | cons e entries ih =>
    intro s
    rw [List.foldl_cons, ih]
    by_cases want : wanted e.1
    · simp [want, Sweep.add, Bool.and_assoc]
    · simp [want]

/-- A probe reports good exactly if every interface it has to probe answers, and there is one. -/
theorem checkInstance_passes {inst : Instance} (probed : Probed inst) (now : Time) (answers : Answers) :
    (checkInstance now answers inst).1 = true ↔ Passes answers inst := by
  rw [checkInstance, Passes]
  by_cases http : inst.effectiveCheckMode = checkHTTP
  · rw [if_pos http, if_pos http, checkHTTPAll, sweepInterfaces_eq]
    have wanted : (inst.interfaces.zipIdx.filter fun e => httpish e.1).isEmpty = true ↔
        ¬∃ it ∈ inst.interfaces, httpish it := by
      rw [List.isEmpty_iff, List.filter_eq_nil_iff, not_exists]
      constructor
      · rintro dull it ⟨member, web⟩
        obtain ⟨n, inside⟩ := List.mem_iff_getElem?.mp member
        exact dull (it, n) (List.mem_zipIdx_iff_getElem?.mpr inside) web
      · rintro dull ⟨it, n⟩ member web
        have inside : inst.interfaces[n]? = some it := List.mem_zipIdx_iff_getElem?.mp member
        exact dull it ⟨List.mem_of_getElem? inside, web⟩
    by_cases web : ∃ it ∈ inst.interfaces, httpish it
    · have any : (inst.interfaces.zipIdx.filter fun e => httpish e.1).isEmpty = false :=
        Bool.eq_false_iff.mpr fun empty => wanted.mp empty web
      simp only [any, Bool.not_false, Bool.not_true, Bool.false_eq_true, if_false, List.all_eq_true, List.mem_filter,
        Prod.forall, List.mem_zipIdx_iff_getElem?, and_imp, probeHTTP_ok]
      exact ⟨fun all => ⟨web, fun n it => all it n⟩, fun all it n => all.2 n it⟩
    · simp [wanted.mpr web, web]
  · have tcp := probed.resolve_left http
    rw [if_neg http, if_neg http, if_pos tcp, checkTCPAll, sweepInterfaces_eq]
    by_cases bare : inst.interfaces = []
    · simp [bare]
    · have nonempty : inst.interfaces.length ≠ 0 := by simpa using bare
      simp only [nonempty, if_false, List.all_eq_true, List.mem_filter, Prod.forall, List.mem_zipIdx_iff_getElem?,
        and_true, probeTCP_ok, bare, ne_eq, not_false_eq_true, true_and]
      exact ⟨fun all n it => all it n, fun all it n => all n it⟩

end Health
end Discovery
