import Discovery.Kv.Newest
import Discovery.Machine
import Discovery.Store.State

namespace Discovery
open Kv Machine

/-- Who did what. Nothing reads the details that a caller adds: they are of any type. -/
structure AuditEntry (δ : Type) where
  id : GoString
  timestamp : Time
  actorID : GoString := []
  actorName : GoString := []
  action : GoString
  target : GoString
  targetType : GoString := []
  details : δ

/-- A call of `AppendAudit`, with the time and the UUID it would draw. -/
structure AuditCall (δ : Type) where
  now : Time
  uuid : GoString
  entry : AuditEntry δ

namespace AuditEntry
variable {δ : Type}

def json [JsonCodec δ] (e : AuditEntry δ) : AuditEntry δ where
  id := jsonString e.id
  timestamp := e.timestamp
  actorID := jsonString e.actorID
  actorName := jsonString e.actorName
  action := jsonString e.action
  target := jsonString e.target
  targetType := jsonString e.targetType
  details := JsonCodec.roundTrip e.details

instance [JsonCodec δ] : JsonCodec (AuditEntry δ) := ⟨json⟩

def stamped (e : AuditEntry δ) (now : Time) (uuid : GoString) : AuditEntry δ :=
  { e with
    timestamp := if e.timestamp = 0 then now else e.timestamp
    id := if e.id = [] then uuid else e.id }

/-- The service filter of a listing. -/
def Matches (serviceFilter : GoString) (e : AuditEntry δ) : Prop :=
  serviceFilter = [] ∨ e.target = serviceFilter

instance (serviceFilter : GoString) : DecidablePred (Matches (δ := δ) serviceFilter) :=
  fun _ => inferInstanceAs (Decidable (_ ∨ _))

end AuditEntry

/-- What a call appends. -/
def AuditCall.appends {δ : Type} (c : AuditCall δ) : AuditEntry δ := c.entry.stamped c.now c.uuid

/-- 1970 in Go's count of time. -/
def unixEpoch : Time := 62135596800 * 1000000000

/-- Before it wraps to an `int64`: the key takes it modulo 2^64 anyway. -/
def unixNano (t : Time) : Int := t - unixEpoch

def auditKey (ts : Time) (id : GoString) : Key := bigEndian 8 (unixNano ts % 2 ^ 64).toNat ++ slash :: id

/-- The times whose nanoseconds since 1970 a key holds: from 1970 well into the 26th century. -/
def AuditEntry.Datable {δ : Type} (e : AuditEntry δ) : Prop :=
  0 ≤ unixNano e.timestamp ∧ unixNano e.timestamp < 2 ^ 64

instance {δ : Type} (e : AuditEntry δ) : Decidable e.Datable := inferInstanceAs (Decidable (_ ∧ _))

theorem auditKey_id {s t : Time} {id id' : GoString} (same : auditKey s id = auditKey t id') : id = id' := by
  have lengths : (bigEndian 8 (unixNano s % 2 ^ 64).toNat).length =
      (bigEndian 8 (unixNano t % 2 ^ 64).toNat).length := by
    rw [bigEndian_length, bigEndian_length]
  exact (List.cons.inj (List.append_inj same lengths).2).2

/-- The keys are in the order of the times. -/
theorem auditKey_lt {δ : Type} {d e : AuditEntry δ} (past : d.Datable) (future : e.Datable)
    (less : d.timestamp < e.timestamp) :
    compare (auditKey d.timestamp d.id) (auditKey e.timestamp e.id) = .lt := by
  obtain ⟨least, most⟩ := past
  obtain ⟨least', most'⟩ := future
  have order : unixNano d.timestamp < unixNano e.timestamp := Int.sub_lt_sub_right less unixEpoch
  rw [auditKey, auditKey, Int.emod_eq_of_lt least most, Int.emod_eq_of_lt least' most']
  refine compare_bigEndian ?_ ?_ _ _
  · omega
  · omega

abbrev AuditLog (δ : Type) [JsonCodec δ] := Bucket (AuditEntry δ)

namespace Store
variable {δ : Type} [JsonCodec δ] (encodes : δ → Bool)

/-- `encodes` tells which details JSON can express. -/
def appendAudit (log : AuditLog δ) (now : Time) (uuid : GoString) (entry : AuditEntry δ) :
    Except Err (AuditLog δ) :=
  let entry := entry.stamped now uuid
  if encodes entry.details then write log (auditKey entry.timestamp entry.id) entry else .error .marshal

def listAudit (log : AuditLog δ) (limit : Int) (serviceFilter : GoString) : List (AuditEntry δ) :=
  let limit := if limit ≤ 0 ∨ 1000 < limit then 200 else limit
  log.newest (fun e => e.Matches serviceFilter) limit.toNat

/-- One call, with the entry it has appended if it succeeds. -/
def auditStep (log : AuditLog δ) (call : AuditCall δ) : AuditLog δ × List (AuditEntry δ) :=
  match appendAudit encodes log call.now call.uuid call.entry with
  | .ok log => (log, [call.appends])
  | .error _ => (log, [])

/-- The log holds the appended entries, each under its key. -/
def Records (log : AuditLog δ) (appended : List (AuditEntry δ)) : Prop :=
  log.toList.Perm (appended.map fun e => (auditKey e.timestamp e.id, e.json))

/-- The listing is the newest appended entries that it may show, newest first: as many as match, at most
`limit`, and no matching entry that it leaves out is newer than one it returns. -/
def ListsNewest (log : AuditLog δ) (appended : List (AuditEntry δ)) (limit : Int) (serviceFilter : GoString) :
    Prop :=
  ∃ returned left : List (AuditEntry δ),
    (returned ++ left).Perm (appended.filter fun e => e.json.Matches serviceFilter) ∧
      listAudit log limit serviceFilter = returned.map AuditEntry.json ∧
        returned.length = min limit.toNat (appended.countP fun e => e.Matches serviceFilter) ∧
          returned.Pairwise (fun d e => e.timestamp ≤ d.timestamp) ∧
            ∀ e ∈ appended, e.Matches serviceFilter → e ∉ returned → ∀ d ∈ returned, e.timestamp ≤ d.timestamp

/-- The target is the filter, or reads back as the filter, but not both. -/
def Misread (serviceFilter : GoString) (e : AuditEntry δ) : Prop :=
  ¬(e.json.Matches serviceFilter ↔ e.Matches serviceFilter)

theorem Records.empty : Records (Bucket.empty : AuditLog δ) [] := by
  have bare : (Bucket.empty : AuditLog δ).toList = [] := by
    refine List.eq_nil_iff_forall_not_mem.mpr ?_
    rintro ⟨key, v⟩ member
    rw [Bucket.mem_toList, Bucket.get_empty] at member
    cases member
  rw [Records, bare, List.map_nil]

/-- A call adds what it appends, under a new key as long as the ids differ. -/
theorem Records.step {log : AuditLog δ} {appended : List (AuditEntry δ)} (records : Records log appended)
    (call : AuditCall δ) (new : call.appends.id ∉ appended.map AuditEntry.id) :
    Records (auditStep encodes log call).1 (appended ++ (auditStep encodes log call).2) := by
  unfold auditStep
  split
  next after ran =>
    obtain ⟨fits, rfl⟩ : ∃ fits, after = log.insert (auditKey call.appends.timestamp call.appends.id)
        call.appends fits := by
      simp only [appendAudit] at ran
      split at ran
      · exact write_eq_ok.mp ran
      · cases ran
    have absent : log.get (auditKey call.appends.timestamp call.appends.id) = none := by
      rw [Option.eq_none_iff_forall_ne_some]
      intro v present
      have member := records.mem_iff.mp (Bucket.mem_toList.mpr present)
      obtain ⟨e, listed, same⟩ := List.mem_map.mp member
      have key : auditKey e.timestamp e.id = auditKey call.appends.timestamp call.appends.id :=
        congrArg Prod.fst same
      exact new (auditKey_id key ▸ List.mem_map_of_mem listed)
    have inserted := Bucket.toList_insert_perm call.appends fits absent
    have recorded := records.cons (auditKey call.appends.timestamp call.appends.id, call.appends.json)
    rw [Records, List.map_append]
    exact (inserted.trans recorded).trans (List.perm_append_singleton _ _).symm
  next => rwa [List.append_nil]

theorem auditStep_ids (log : AuditLog δ) (call : AuditCall δ) :
    ((auditStep encodes log call).2.map AuditEntry.id).Sublist [call.appends.id] := by
  unfold auditStep
  split
  next => exact List.Sublist.refl _
  next => exact List.nil_sublist _

theorem Records.run {log : AuditLog δ} {appended : List (AuditEntry δ)} {calls : List (AuditCall δ)}
    (records : Records log appended)
    (ids : (appended.map AuditEntry.id ++ calls.map (·.appends.id)).Nodup) :
    Records (exec (auditStep encodes) log calls).1 (appended ++ (exec (auditStep encodes) log calls).2) := by
  induction calls generalizing log appended with
  | nil => rwa [exec, List.append_nil]
  | cons call calls ih =>
    have first : call.appends.id ∉ appended.map AuditEntry.id :=
      fun member => (List.nodup_append.mp ids).2.2 _ member _ List.mem_cons_self rfl
    have next := Records.step encodes records call first
    have apart : ((appended ++ (auditStep encodes log call).2).map AuditEntry.id ++
        calls.map (·.appends.id)).Nodup := by
      refine List.Nodup.sublist ?_ ids
      rw [List.map_append, List.append_assoc]
      exact ((auditStep_ids encodes log call).append_right _).append_left _
    have rest := ih next apart
    rwa [List.append_assoc] at rest

/-- An appended entry is the entry of one of the calls. -/
theorem mem_appended {log : AuditLog δ} {calls : List (AuditCall δ)} {e : AuditEntry δ}
    (member : e ∈ (exec (auditStep encodes) log calls).2) : ∃ call ∈ calls, e = call.appends := by
  induction calls generalizing log with
  | nil => cases member
  | cons call calls ih =>
    rcases List.mem_append.mp member with now | later
    · unfold auditStep at now
      split at now
      next => exact ⟨call, List.mem_cons_self, List.mem_singleton.mp now⟩
      next => cases now
    · obtain ⟨earlier, listed, same⟩ := ih later
      exact ⟨earlier, List.mem_cons_of_mem _ listed, same⟩

theorem valid_of_reads {serviceFilter : GoString} {e : AuditEntry δ} (reads : e.json.Matches serviceFilter) :
    ValidUTF8 serviceFilter := by
  rcases reads with rfl | same
  · exact rfl
  · have target : jsonString e.target = serviceFilter := same
    exact target ▸ jsonString_idem e.target

theorem reads_of_matches {serviceFilter : GoString} {e : AuditEntry δ} (valid : ValidUTF8 serviceFilter)
    (fits : e.Matches serviceFilter) : e.json.Matches serviceFilter := by
  rcases fits with empty | rfl
  · exact Or.inl empty
  · exact Or.inr valid

/-- A valid filter misreads only entries that it does not match. -/
theorem countP_lt_of_misread {appended : List (AuditEntry δ)} {serviceFilter : GoString} {e : AuditEntry δ}
    (valid : ValidUTF8 serviceFilter) (member : e ∈ appended) (misread : Misread serviceFilter e) :
    (appended.countP fun e => e.Matches serviceFilter) < appended.countP fun e => e.json.Matches serviceFilter := by
  have other : ¬e.Matches serviceFilter := fun fits =>
    misread ⟨fun _ => fits, reads_of_matches valid⟩
  have reads : e.json.Matches serviceFilter := by
    by_contra unread
    exact misread ⟨fun now => absurd now unread, fun fits => absurd fits other⟩
  have narrowed : appended.filter (fun e => e.Matches serviceFilter) =
      (appended.filter fun e => e.json.Matches serviceFilter).filter fun e => e.Matches serviceFilter := by
    rw [List.filter_filter]
    refine List.filter_congr fun d _ => ?_
    rw [Bool.eq_iff_iff, Bool.and_eq_true, decide_eq_true_eq, decide_eq_true_eq]
    exact ⟨fun fits => ⟨fits, reads_of_matches valid fits⟩, fun both => both.1⟩
  rw [List.countP_eq_length_filter, List.countP_eq_length_filter, narrowed, List.length_filter_lt_length_iff_exists]
  exact ⟨e, List.mem_filter.mpr ⟨member, decide_eq_true reads⟩, by simpa using other⟩

/-- Only the text of the filter and of the targets can make a listing miscount. -/
theorem counts_eq_iff {appended : List (AuditEntry δ)} {n : ℕ} {serviceFilter : GoString} (positive : 0 < n) :
    min n (appended.countP fun e => e.json.Matches serviceFilter) =
        min n (appended.countP fun e => e.Matches serviceFilter) ↔
      (∀ e ∈ appended, ¬Misread serviceFilter e) ∨
        (ValidUTF8 serviceFilter ∧ n ≤ appended.countP fun e => e.Matches serviceFilter) := by
  constructor
  · intro same
    by_cases clean : ∀ e ∈ appended, ¬Misread serviceFilter e
    · exact Or.inl clean
    · obtain ⟨e, member, misread⟩ : ∃ e ∈ appended, Misread serviceFilter e := by simpa using clean
      have valid : ValidUTF8 serviceFilter := by
        by_contra invalid
        have unread : ∀ d : AuditEntry δ, ¬d.json.Matches serviceFilter :=
          fun d reads => invalid (valid_of_reads reads)
        have none : (appended.countP fun e => e.json.Matches serviceFilter) = 0 :=
          List.countP_eq_zero.mpr fun d _ => by simpa using unread d
        have some : 0 < appended.countP fun e => e.Matches serviceFilter := by
          refine List.countP_pos_iff.mpr ⟨e, member, decide_eq_true ?_⟩
          by_contra other
          exact misread ⟨fun now => absurd now (unread e), fun fits => absurd fits other⟩
        omega
      have fewer := countP_lt_of_misread valid member misread
      exact Or.inr ⟨valid, by omega⟩
  · rintro (clean | ⟨valid, enough⟩)
    · have agree : (appended.countP fun e => e.json.Matches serviceFilter) =
          appended.countP fun e => e.Matches serviceFilter := by
        refine List.countP_congr fun e member => ?_
        rw [decide_eq_true_eq, decide_eq_true_eq]
        exact not_not.mp (clean e member)
      rw [agree]
    · have more : (appended.countP fun e => e.Matches serviceFilter) ≤
          appended.countP fun e => e.json.Matches serviceFilter := by
        refine List.countP_mono_left fun e _ fits => ?_
        exact decide_eq_true (reads_of_matches valid (of_decide_eq_true fits))
      omega

omit [JsonCodec δ] in
theorem older_of_sorted {l : List (AuditEntry δ)} (datable : ∀ e ∈ l, e.Datable)
    (sorted : l.Pairwise fun d e => compare (auditKey e.timestamp e.id) (auditKey d.timestamp d.id) = .lt) :
    l.Pairwise fun d e => e.timestamp ≤ d.timestamp := by
  refine sorted.imp_of_mem ?_
  intro d e here there below
  refine Int.not_lt.mp fun less => ?_
  rw [compare_swap, auditKey_lt (datable d here) (datable e there) less] at below
  cases below

/-- From an empty log, a listing shows the newest entries exactly when none of the targets is misread, or
when enough of them match. -/
theorem listsNewest_iff (calls : List (AuditCall δ)) (limit : Int) (serviceFilter : GoString)
    (ids : (calls.map (·.appends.id)).Nodup) (datable : ∀ call ∈ calls, call.appends.Datable)
    (least : 1 ≤ limit) (most : limit ≤ 1000) :
    ListsNewest (exec (auditStep encodes) Bucket.empty calls).1 (exec (auditStep encodes) Bucket.empty calls).2
        limit serviceFilter ↔
      (∀ e ∈ (exec (auditStep encodes) Bucket.empty calls).2, ¬Misread serviceFilter e) ∨
        (ValidUTF8 serviceFilter ∧ limit.toNat ≤
          (exec (auditStep encodes) Bucket.empty calls).2.countP fun e => e.Matches serviceFilter) := by
  have records := Records.run encodes Records.empty ids
  rw [List.nil_append] at records
  have dated : ∀ e ∈ (exec (auditStep encodes) Bucket.empty calls).2, e.Datable := by
    intro e member
    obtain ⟨call, listed, rfl⟩ := mem_appended encodes member
    exact datable call listed
  generalize (exec (auditStep encodes) Bucket.empty calls).1 = log at *
  generalize (exec (auditStep encodes) Bucket.empty calls).2 = appended at *
  have asked : listAudit log limit serviceFilter = log.newest (fun e => e.Matches serviceFilter) limit.toNat := by
    have inside : ¬(limit ≤ 0 ∨ 1000 < limit) := by omega
    simp only [listAudit, if_neg inside]
  obtain ⟨returned, left, perm, listed, length, sorted⟩ := Bucket.newest_of_perm records
    (fun e => e.Matches serviceFilter) limit.toNat
  constructor
  · rw [← counts_eq_iff (by omega)]
    rintro ⟨shown, _, _, answer, count, _⟩
    have same := congrArg List.length (asked.symm.trans answer)
    rw [listed, List.length_map, List.length_map] at same
    rw [← length, ← count, same]
  · intro readBack
    have counts := (counts_eq_iff (by omega)).mpr readBack
    have older := older_of_sorted (fun e member => dated e (List.mem_of_mem_filter (perm.mem_iff.mp member))) sorted
    obtain ⟨newestFirst, _, across⟩ := List.pairwise_append.mp older
    refine ⟨returned, left, perm, asked.trans listed, length.trans counts, newestFirst, ?_⟩
    intro e member fits out d shown
    have readable : e.json.Matches serviceFilter := by
      rcases readBack with clean | ⟨valid, _⟩
      · exact (not_not.mp (clean e member)).mpr fits
      · exact reads_of_matches valid fits
    have candidate : e ∈ returned ++ left :=
      perm.mem_iff.mpr (List.mem_filter.mpr ⟨member, decide_eq_true readable⟩)
    rcases List.mem_append.mp candidate with inside | outside
    · exact absurd inside out
    · exact across d shown e outside

instance : JsonCodec StringMap := ⟨jsonMap⟩

def registered (id : GoString) (timestamp : Time) (target : GoString) : AuditCall StringMap where
  now := unixEpoch
  uuid := []
  entry := { id, timestamp, action := "instance.upserted", target, details := [] }

def threeCalls : List (AuditCall StringMap) :=
  [registered "a" (unixEpoch + 2) "s", registered "b" (unixEpoch + 1) "t", registered "c" (unixEpoch + 3) "s"]

/-- The filter is read as it was written, so the newest two entries about "s" are listed. -/
theorem listsNewest_iff_three :
    ListsNewest (exec (auditStep fun _ => true) Bucket.empty threeCalls).1
        (exec (auditStep fun _ => true) Bucket.empty threeCalls).2 2 "s" :=
  (listsNewest_iff (fun _ => true) threeCalls 2 "s" (by decide) (by decide) (by decide) (by decide)).mpr
    (Or.inr ⟨by decide, by decide⟩)

/-- A filter of one byte that is no text shows nothing of the service with that name. -/
theorem filter_misread :
    ¬∀ (encodes : StringMap → Bool) (calls : List (AuditCall StringMap)) (limit : Int) (serviceFilter : GoString),
      (calls.map (·.appends.id)).Nodup → (∀ call ∈ calls, call.appends.Datable) → 1 ≤ limit → limit ≤ 1000 →
        ListsNewest (exec (auditStep encodes) Bucket.empty calls).1 (exec (auditStep encodes) Bucket.empty calls).2
          limit serviceFilter := by
  intro lists
  obtain ⟨returned, _, _, listed, count, _⟩ := lists (fun _ => true) [registered "a" unixEpoch [0xFF]] 1 [0xFF]
    (by decide) (by decide) (by decide) (by decide)
  have one : returned.length = 1 := count
  have nothing : (listAudit (exec (auditStep fun _ => true) Bucket.empty [registered "a" unixEpoch [0xFF]]).1 1
      [0xFF]).length = 0 := by decide
  rw [listed, List.length_map] at nothing
  omega

end Store
end Discovery
