import Discovery.Model.ConfigKeys
import Discovery.Store.WellFormed
import Discovery.Url

namespace Discovery

/-- Whether the interface is reached over TLS. -/
def Interface.secure (it : Interface) : Bool :=
  toLower it.protocol == ofString "https" || toLower it.protocol == ofString "wss" || it.tls

namespace Health
open Url

def isWebURL (s : GoString) : Bool :=
  (ofString "http://").isPrefixOf (toLower s) || (ofString "https://").isPrefixOf (toLower s)

/-- The path that is probed: the health path, the interface's or the root, with a slash in front. -/
def probePath (it : Interface) : GoString :=
  let path := if it.healthURL = [] then it.path else it.healthURL
  let path := if path = [] then [0x2F] else path
  if path.head? = some 0x2F then path else 0x2F :: path

/-- A port that the scheme implies, or none. -/
def defaultPort (it : Interface) : Bool :=
  it.port == 0 || (!it.secure && it.port == 80) || (it.secure && it.port == 443)

def buildProbeURL (host : GoString) (it : Interface) : GoString :=
  if it.healthURL ≠ [] ∧ isWebURL it.healthURL then it.healthURL
  else if defaultPort it then webScheme it.secure ++ ofString "://" ++ (host ++ probePath it)
  else webScheme it.secure ++ ofString "://" ++ (host ++ 0x3A :: formatInt it.port ++ probePath it)

end Health

namespace Server
open Url Health

section
variable (equalFold : GoString → GoString → Bool)

/-- The interface a name selects; names are matched by `strings.EqualFold`. -/
def selected (inst : Instance) (iface : GoString) : Option Interface :=
  inst.interfaces.find? fun it => equalFold it.name iface

def addressFor (inst : Instance) (iface : GoString) : GoString :=
  if iface ≠ [] then
    match selected equalFold inst iface with
    | some it => inst.address ++ 0x3A :: formatInt it.port
    | none => inst.address
  else inst.address

def urlFor (inst : Instance) (iface : GoString) : GoString :=
  match inst.interfaces.find? fun it => iface == [] || equalFold it.name iface with
  | some it => webScheme it.secure ++ ofString "://" ++ (inst.address ++ 0x3A :: formatInt it.port ++ it.path)
  | none => []

end

/-- The port a client connects to. -/
def effectivePort (u : Url) : GoString :=
  if u.port = [] then if u.scheme = ofString "https" then "443" else "80" else u.port

/-- Both URLs lead to the same place. -/
structure SameEndpoint (u p : Url) : Prop where
  scheme : p.scheme = u.scheme
  host : p.host = u.host
  port : effectivePort p = effectivePort u
  path : SamePath p.path u.path

/-- What is published of the selected interface reads back as the registration. -/
structure ReadsBack (equalFold : GoString → GoString → Bool) (inst : Instance) (iface : GoString)
    (it : Interface) : Prop where
  address : splitHostPort (addressFor equalFold inst iface) = some (inst.address, formatInt it.port)
  url : ∃ path, parse (urlFor equalFold inst iface) =
      some { scheme := webScheme it.secure, host := inst.address, port := formatInt it.port, path } ∧
    SamePath path it.path
  probe : it.healthURL = [] → ∃ u p, parse (urlFor equalFold inst iface) = some u ∧
    parse (buildProbeURL inst.address it) = some p ∧ SameEndpoint u p

/-- A host name or an IPv4 address with a path from the root that can stand in a URL. -/
structure Addressable (inst : Instance) (it : Interface) : Prop where
  text : hostText false inst.address = true
  noColon : 0x3A ∉ inst.address
  unopened : 0x5B ∉ inst.address
  unclosed : 0x5D ∉ inst.address
  path : PathText it.path

theorem digits_formatInt {n : Int} (positive : 0 ≤ n) : digits (formatInt n) = true := by
  rw [formatInt, if_neg (by omega), List.nil_append, digits, List.all_eq_true]
  intro b member
  obtain ⟨low, high⟩ := decimal_digits member
  simp [low, high]

theorem port_of_selected {equalFold : GoString → GoString → Bool} {inst v : Instance} (valid : inst.validate = .ok v)
    {iface : GoString} {it : Interface} (chosen : selected equalFold v iface = some it) :
    1 ≤ it.port ∧ it.port ≤ 65535 := by
  obtain ⟨_, _, _, _, interfaces, checked, rfl⟩ := Instance.validate_ok valid
  exact validated_port checked it (List.mem_of_find?_eq_some chosen)

theorem addressFor_selected {equalFold : GoString → GoString → Bool} {inst : Instance} {iface : GoString}
    (named : iface ≠ []) {it : Interface} (chosen : selected equalFold inst iface = some it) :
    addressFor equalFold inst iface = inst.address ++ 0x3A :: formatInt it.port := by
  rw [addressFor, if_pos named, chosen]

theorem urlFor_selected {equalFold : GoString → GoString → Bool} {inst : Instance} {iface : GoString}
    (named : iface ≠ []) {it : Interface} (chosen : selected equalFold inst iface = some it) :
    urlFor equalFold inst iface =
      webScheme it.secure ++ ofString "://" ++ (inst.address ++ 0x3A :: formatInt it.port ++ it.path) := by
  have same : (fun it : Interface => iface == [] || equalFold it.name iface) = fun it => equalFold it.name iface := by
    funext it
    simp [named]
  rw [urlFor, same]
  rw [selected] at chosen
  rw [chosen]

/-- The probed path is the interface's, or the root in place of the empty one. -/
theorem probePath_samePath {it : Interface} (unset : it.healthURL = []) (rooted : Rooted it.path) :
    SamePath (probePath it) it.path := by
  rcases rooted with empty | slash
  · simp [SamePath, probePath, unset, empty]
  · have nonempty : it.path ≠ [] := by
      intro empty
      rw [empty] at slash
      cases slash
    simp [SamePath, probePath, unset, nonempty, slash]

theorem probePath_text {it : Interface} (unset : it.healthURL = []) (inUrl : PathText it.path) :
    PathText (probePath it) := by
  rcases inUrl.rooted with empty | slash
  · have root : probePath it = [0x2F] := by simp [probePath, unset, empty]
    rw [root]
    exact ⟨Or.inr rfl, by decide, by decide, rfl, rfl⟩
  · have nonempty : it.path ≠ [] := by
      intro empty
      rw [empty] at slash
      cases slash
    have same : probePath it = it.path := by simp [probePath, unset, nonempty, slash]
    rwa [same]

/-- A port is left out of the probe only where the scheme stands for it. -/
theorem effectivePort_implied {it : Interface} (implied : defaultPort it = true) (positive : 1 ≤ it.port)
    (host path path' : GoString) :
    effectivePort { scheme := webScheme it.secure, host, port := [], path } =
      effectivePort { scheme := webScheme it.secure, host, port := formatInt it.port, path := path' } := by
  have cases_ : (it.secure = false ∧ it.port = 80) ∨ (it.secure = true ∧ it.port = 443) := by
    simp only [defaultPort, Bool.or_eq_true, Bool.and_eq_true, beq_iff_eq, Bool.not_eq_true'] at implied
    rcases implied with (zero | http) | https
    · omega
    · exact Or.inl http
    · exact Or.inr https
  rcases cases_ with ⟨plain, port⟩ | ⟨secure, port⟩
  · rw [plain, port]
    rfl
  · rw [secure, port]
    rfl

/-- The probe of an addressable interface goes where its published URL points. -/
theorem Addressable.probe {inst : Instance} {it : Interface} (addressable : Addressable inst it)
    (unset : it.healthURL = []) (positive : 1 ≤ it.port) : ∃ p, parse (buildProbeURL inst.address it) = some p ∧
      SameEndpoint
        { scheme := webScheme it.secure, host := inst.address, port := formatInt it.port, path := it.path } p := by
  have inUrl := probePath_text unset addressable.path
  have same := probePath_samePath unset addressable.path.rooted
  rw [buildProbeURL, if_neg (fun custom => custom.1 unset)]
  split
  next implied =>
    have parsed := parse_bare it.secure addressable.text addressable.noColon addressable.unopened inUrl
    refine ⟨_, parsed, rfl, rfl, ?_, same⟩
    exact effectivePort_implied implied positive inst.address (probePath it) it.path
  next =>
    have digits := digits_formatInt (by omega : 0 ≤ it.port)
    exact ⟨_, parse_port it.secure addressable.text addressable.unopened digits inUrl, rfl, rfl, rfl, same⟩

/-- The address and the URL of a selected interface read back exactly where the address is a host name or an IPv4
address and the path can stand in a URL. -/
theorem readsBack_iff {equalFold : GoString → GoString → Bool} {inst v : Instance} (valid : inst.validate = .ok v)
    {iface : GoString} (named : iface ≠ []) {it : Interface} (chosen : selected equalFold v iface = some it) :
    ReadsBack equalFold v iface it ↔ Addressable v it := by
  have positive := (port_of_selected valid chosen).1
  have decimal := digits_formatInt (by omega : 0 ≤ it.port)
  have port : 0x3A ∉ formatInt it.port ∧ 0x5B ∉ formatInt it.port ∧ 0x5D ∉ formatInt it.port :=
    ⟨digits_byte decimal (by decide), digits_byte decimal (by decide), digits_byte decimal (by decide)⟩
  constructor
  · rintro ⟨address, url, _⟩
    rw [addressFor_selected named chosen] at address
    obtain ⟨noColon, unopened, unclosed⟩ := (splitHostPort_iff port).mp address
    rw [urlFor_selected named chosen] at url
    obtain ⟨text, path⟩ := (parse_iff it.secure unopened decimal).mp url
    exact ⟨text, noColon, unopened, unclosed, path⟩
  · intro addressable
    have url := parse_port it.secure addressable.text addressable.unopened decimal addressable.path
    refine ⟨?_, ?_, fun unset => ?_⟩
    · rw [addressFor_selected named chosen]
      exact (splitHostPort_iff port).mpr ⟨addressable.noColon, addressable.unopened, addressable.unclosed⟩
    · rw [urlFor_selected named chosen]
      exact ⟨it.path, url, rfl⟩
    · obtain ⟨p, probed, same⟩ := addressable.probe unset positive
      rw [urlFor_selected named chosen]
      exact ⟨_, p, url, probed, same⟩

/-- A registration with one interface. -/
def reachedAt (address path : GoString) : Instance where
  id := "a"
  serviceName := "s"
  address
  interfaces := [{ name := "http", protocol := "http", port := 8080, path }]
  weight := 1
  status := statusUp

/-- What a client that asks for "HTTP" reads back of that interface. -/
def ReadsBackAt (address path : GoString) : Prop :=
  ReadsBack (fun a b => toLower a == toLower b) (reachedAt address path) "HTTP"
    { name := "http", protocol := "http", port := 8080, path }

/-- An IPv4 address can be published, and a path without its slash cannot. -/
theorem readsBack_iff_ipv4 : ReadsBackAt "10.0.0.1" "/v1" ∧ ¬ReadsBackAt "10.0.0.1" "v1" := by
  constructor
  · have valid : (reachedAt "10.0.0.1" "/v1").validate = .ok (reachedAt "10.0.0.1" "/v1") := by decide
    have reads : ReadsBackAt "10.0.0.1" "/v1" ↔ Addressable _ _ := readsBack_iff valid (by decide) (by decide)
    have text : hostText false "10.0.0.1" = true := by decide +kernel
    exact reads.mpr ⟨text, by decide, by decide, by decide, ⟨Or.inr rfl, by decide, by decide, by decide, by decide⟩⟩
  · have valid : (reachedAt "10.0.0.1" "v1").validate = .ok (reachedAt "10.0.0.1" "v1") := by decide
    have reads : ReadsBackAt "10.0.0.1" "v1" ↔ Addressable _ _ := readsBack_iff valid (by decide) (by decide)
    have unrooted : ¬Rooted "v1" := fun rooted => rooted.elim (fun empty => absurd empty (by decide)) (by decide)
    exact fun back => unrooted (reads.mp back).path.rooted

/-- An IPv6 address has too many colons in front of the port. -/
theorem ipv6_not_split :
    ¬∀ (equalFold : GoString → GoString → Bool) (inst v : Instance), inst.validate = .ok v → ∀ iface ≠ [], ∀ it,
      selected equalFold v iface = some it → ReadsBack equalFold v iface it := by
  intro all
  have read := (all (fun a b => toLower a == toLower b) (reachedAt "2001:db8::1" "/") (reachedAt "2001:db8::1" "/")
    (by decide) "http" (by decide) { name := "http", protocol := "http", port := 8080, path := "/" }
    (by decide)).address
  exact absurd read (by decide)

end Server
end Discovery
