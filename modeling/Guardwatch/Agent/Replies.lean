import Guardwatch.Agent.Acknowledge
import Guardwatch.Lib.Json

/-! The JSON texts that the handler passes to `gw_httpd_ok`. -/

namespace Guardwatch

def dataKey : List UInt8 := CText.utf8 "data"
def agentNameKey : List UInt8 := CText.utf8 "agentName"

/-- The string at `data.agentName` of a text. -/
def responseName (text : List UInt8) : Option (List UInt8) := do
  let value ← Json.parse text
  let data ← value.member dataKey
  match ← data.member agentNameKey with
  | .string name => some name
  | _ => none

theorem nameResponse_bytes (name : CText) :
    (nameResponse name).bytes = 123 :: Json.quote :: (dataKey ++ Json.quote :: 58 :: 32 :: 123 ::
      Json.quote :: (agentNameKey ++ Json.quote :: 58 :: Json.quote ::
        (name.bytes ++ [Json.quote, 125, 125]))) := by
  have opening : (CText.ofString "\x7b\"data\": \x7b\"agentName\":\"").bytes =
      123 :: Json.quote :: (dataKey ++ Json.quote :: 58 :: 32 :: 123 ::
        Json.quote :: (agentNameKey ++ [Json.quote, 58, Json.quote])) := by decide +kernel
  have closing : (CText.ofString "\"\x7d\x7d").bytes = [Json.quote, 125, 125] := by decide +kernel
  simp only [nameResponse, CText.concat, List.flatMap_cons, List.flatMap_nil, opening, closing,
    List.append_nil, List.cons_append, List.append_assoc, List.nil_append]

theorem dataKey_plain : Json.Plain dataKey := by
  decide +kernel

theorem agentNameKey_plain : Json.Plain agentNameKey := by
  decide +kernel

/-- A plain name stands for itself in the response. -/
theorem parse_nameResponse {name : CText} (plain : Json.Plain name.bytes) :
    Json.parse (nameResponse name).bytes =
      some (.object [(dataKey, .object [(agentNameKey, .string name.bytes)])]) := by
  obtain ⟨fuel, enough⟩ : ∃ fuel, 2 * (nameResponse name).bytes.length + 2 = fuel + 5 := by
    refine Nat.exists_eq_add_of_le' ?_
    rw [nameResponse_bytes]
    simp only [List.length_cons]
    omega
  have inner : Json.value (fuel + 3) (123 :: Json.quote :: (agentNameKey ++ Json.quote :: 58 ::
      Json.quote :: (name.bytes ++ [Json.quote, 125, 125]))) =
      some (.object [(agentNameKey, .string name.bytes)], [125]) := by
    have spaced : Json.skip (Json.quote :: (name.bytes ++ [Json.quote, 125, 125])) =
        Json.quote :: (name.bytes ++ [Json.quote, 125, 125]) := rfl
    rw [Json.value_object, Json.members_name agentNameKey_plain, spaced, Json.value_string,
      Json.string_plain plain]
    rfl
  have spaced : Json.skip (32 :: 123 :: Json.quote :: (agentNameKey ++ Json.quote :: 58 ::
      Json.quote :: (name.bytes ++ [Json.quote, 125, 125]))) = 123 :: Json.quote ::
      (agentNameKey ++ Json.quote :: 58 :: Json.quote :: (name.bytes ++ [Json.quote, 125, 125])) :=
    rfl
  rw [Json.parse, enough, nameResponse_bytes]
  change (Json.value (fuel + 5) (123 :: Json.quote :: _)).bind _ = _
  rw [Json.value_object, Json.members_name dataKey_plain, spaced, inner]
  rfl

/-- The response gives the name back if and only if the name is plain. -/
theorem responseName_iff (name : CText) :
    responseName (nameResponse name).bytes = some name.bytes ↔ Json.Plain name.bytes := by
  constructor
  · intro itself
    obtain ⟨value, parsed, itself⟩ := Option.bind_eq_some_iff.mp itself
    obtain ⟨data, at_data, itself⟩ := Option.bind_eq_some_iff.mp itself
    obtain ⟨member, at_name, itself⟩ := Option.bind_eq_some_iff.mp itself
    obtain rfl : member = .string name.bytes := by
      cases member <;> cases itself
      rfl
    obtain ⟨⟨value', rest⟩, read, last⟩ := Option.bind_eq_some_iff.mp parsed
    obtain rfl : value' = value := by
      dsimp only at last
      split at last
      · exact Option.some.inj last
      · cases last
    rw [nameResponse_bytes] at read
    obtain ⟨fuel, after, read⟩ := Json.object_first dataKey_plain read at_data
    obtain ⟨fuel, after, read⟩ := Json.object_first agentNameKey_plain read at_name
    obtain ⟨⟨text, rest'⟩, string, eq⟩ : ∃ read, Json.string (name.bytes ++ [Json.quote, 125, 125]) =
        some read ∧ (Json.Value.string read.1, read.2) = (.string name.bytes, after) := by
      cases fuel with
      | zero => cases read
      | succ fuel => exact Option.map_eq_some_iff.mp ((Json.value_string fuel _).symm.trans read)
    cases eq
    exact Json.plain_of_string (by decide) string
  · intro plain
    rw [responseName, parse_nameResponse plain]
    rfl

/-! ### Every reply on the two routes -/

theorem missingAckidResponse_malformed : (Json.parse missingAckidResponse.bytes).isNone = true := by
  decide +kernel

theorem heartbeatResponse_wellFormed : (Json.parse heartbeatResponse.bytes).isSome = true := by
  decide +kernel

/-- The handler replies, with no copy from `NULL` or past the end of a buffer; a text that it passes
to `gw_httpd_ok` is one JSON value, and after an acknowledgement its name is the stored one. -/
structure AnswersJson (sqlite : Sqlite) (env : HttpdEnv) (fuel : Nat) (hm : HttpMessage)
    (state : GwState) : Prop where
  replies : (gwHttpdEvent sqlite env fuel hm state).1.isSome = true
  wellFormed : ∀ body, (gwHttpdEvent sqlite env fuel hm state).1 = some (.gwHttpdOk body) →
    (Json.parse body.bytes).isSome = true
  named : ∀ body ackid name, (gwHttpdEvent sqlite env fuel hm state).1 = some (.gwHttpdOk body) →
    AcknowledgeRequest env hm ackid →
    (gwHttpdEvent sqlite env fuel hm state).2.table.val? keyAgentName = some name →
    responseName body.bytes = some name.bytes

variable {sqlite : Sqlite} {env : HttpdEnv} {fuel : Nat} {hm : HttpMessage} {state : GwState}

/-- A reply that is not passed to `gw_httpd_ok` has no body to check. -/
theorem answersJson_file (reply : (gwHttpdEvent sqlite env fuel hm state).1 = some .mgServeHttp) :
    AnswersJson sqlite env fuel hm state := by
  refine ⟨by rw [reply]; rfl, fun body sent => ?_, fun body _ _ sent => ?_⟩ <;>
  · rw [reply] at sent
    cases sent

/-- The error text lacks its last brace. -/
theorem not_answersJson_missing (post : gwHttpdPrefixCheck hm.method gwHttpMethodPost = true)
    (route : gwHttpdPrefixCheck hm.uri gwHttpUriAcknowledge = true) (body : hm.body.len > 0)
    (missing : env.ackid hm.body = none) : ¬AnswersJson sqlite env fuel hm state := by
  intro answers
  have sent : (gwHttpdEvent sqlite env fuel hm state).1 =
      some (.gwHttpdOk missingAckidResponse) := by
    rw [gwHttpdEvent, post_apart post, post, route, missing]
    simp [body]
  have wellFormed := answers.wellFormed _ sent
  have malformed := missingAckidResponse_malformed
  rw [Option.isNone_iff_eq_none] at malformed
  rw [malformed] at wellFormed
  cases wellFormed

/-- Where the reply has the copy of a name, and `name` is stored, the copy has to be `name`. -/
theorem answersJson_copy {ackid copy name : CText} {settings : GwAppSettings}
    {table : SettingTable} (request : AcknowledgeRequest env hm ackid)
    (event : gwHttpdEvent sqlite env fuel hm state =
      (some (.gwHttpdOk (nameResponse copy)), ⟨settings, table⟩))
    (stored : table.val? keyAgentName = some name) :
    AnswersJson sqlite env fuel hm state ↔
      responseName (nameResponse copy).bytes = some name.bytes := by
  constructor
  · intro answers
    refine answers.named _ ackid name ?_ request ?_
    · rw [event]
    · rw [event]
      exact stored
  · intro named
    refine ⟨by rw [event]; rfl, fun body sent => ?_, fun body other name' sent _ stored' => ?_⟩
    · rw [event] at sent
      cases sent
      obtain ⟨value, parsed, -⟩ := Option.bind_eq_some_iff.mp named
      rw [parsed]
      rfl
    · rw [event] at sent stored'
      cases sent
      obtain rfl := Option.some.inj (stored.symm.trans stored')
      exact named

/-- The name that is stored when the handler answers an acknowledgement decides. -/
theorem answersJson_ackid {ackid name : CText} (request : AcknowledgeRequest env hm ackid)
    (fits : ackid.bytes.length < 1024)
    (stored : (sqlite.gwSqliteExecute state.table (acknowledgeSql ackid)).val? keyAgentName =
      some name) (name_fits : name.bytes.length < 1024) :
    AnswersJson sqlite env fuel hm state ↔
      if sqlite.answers (sqlite.gwSqliteExecute state.table (acknowledgeSql ackid))
      then Json.Plain name.bytes else name.bytes = [] := by
  rw [answersJson_copy request (gwHttpdEvent_stored request fits stored name_fits) stored,
    copiedName]
  split
  · exact responseName_iff name
  · have empty := (responseName_iff (CBuffer.zero 1024).text).mpr Json.plain_nil
    rw [empty, Option.some.injEq]
    exact eq_comm

/-- `strcpy` writes past the field of the settings before there is a reply. -/
theorem not_answersJson_long {ackid : CText} (request : AcknowledgeRequest env hm ackid)
    (long : ¬ackid.bytes.length < 1024) : ¬AnswersJson sqlite env fuel hm state := by
  intro answers
  have replies := answers.replies
  rw [gwHttpdEvent_ackid request, acknowledge, CText.strcpy, dif_neg long] at replies
  cases replies

/-- On the two routes every reply is as it should be if and only if a body to acknowledge has an id,
the id has room in the settings, and the name is plain, or is empty where its query fails. -/
theorem answersJson_iff (post : gwHttpdPrefixCheck hm.method gwHttpMethodPost = true)
    (route : gwHttpdPrefixCheck hm.uri gwHttpUriAcknowledge = true ∨
      gwHttpdPrefixCheck hm.uri gwHttpUriHeartbeat = true) {name : CText}
    (name_fits : name.bytes.length < 1024)
    (stored : ∀ ackid, AcknowledgeRequest env hm ackid → ackid.bytes.length < 1024 →
      (sqlite.gwSqliteExecute state.table (acknowledgeSql ackid)).val? keyAgentName = some name) :
    AnswersJson sqlite env fuel hm state ↔
      (gwHttpdPrefixCheck hm.uri gwHttpUriAcknowledge = true → hm.body.len > 0 →
        env.ackid hm.body ≠ none) ∧
      ∀ ackid, AcknowledgeRequest env hm ackid → ackid.bytes.length < 1024 ∧
        if sqlite.answers (sqlite.gwSqliteExecute state.table (acknowledgeSql ackid))
        then Json.Plain name.bytes else name.bytes = [] := by
  constructor
  · intro answers
    refine ⟨fun route body missing => not_answersJson_missing post route body missing answers,
      fun ackid request => ?_⟩
    have fits : ackid.bytes.length < 1024 := by
      by_contra long
      exact not_answersJson_long request long answers
    exact ⟨fits,
      (answersJson_ackid request fits (stored ackid request fits) name_fits).mp answers⟩
  · rintro ⟨present, plain⟩
    by_cases acknowledges : gwHttpdPrefixCheck hm.uri gwHttpUriAcknowledge = true
    · by_cases body : hm.body.len > 0
      · obtain ⟨ackid, found⟩ := Option.ne_none_iff_exists'.mp (present acknowledges body)
        have request : AcknowledgeRequest env hm ackid := ⟨post, acknowledges, body, found⟩
        obtain ⟨fits, plain⟩ := plain ackid request
        exact (answersJson_ackid request fits (stored ackid request fits) name_fits).mpr plain
      · apply answersJson_file
        rw [gwHttpdEvent, post_apart post, post, acknowledges]
        simp [body]
    · have heartbeat := route.resolve_left acknowledges
      have event : (gwHttpdEvent sqlite env fuel hm state).1 =
          some (.gwHttpdOk heartbeatResponse) := by
        rw [gwHttpdEvent, post_apart post, post, heartbeat_apart heartbeat, heartbeat]
        rfl
      refine ⟨by rw [event]; rfl, fun body sent => ?_, fun body ackid name _ request => ?_⟩
      · obtain rfl := HttpdReply.gwHttpdOk.inj (Option.some.inj (event.symm.trans sent))
        exact heartbeatResponse_wellFormed
      · exact absurd request.route acknowledges

theorem answersJson_iff_plain :
    AnswersJson (.ofOther fun _ => none) (ackidEnv plainAckid) 0
        (ackidMessage plainAckid) oldState ↔
      (gwHttpdPrefixCheck (ackidMessage plainAckid).uri gwHttpUriAcknowledge = true →
        (ackidMessage plainAckid).body.len > 0 →
        (ackidEnv plainAckid).ackid (ackidMessage plainAckid).body ≠ none) ∧
      ∀ ackid, AcknowledgeRequest (ackidEnv plainAckid)
          (ackidMessage plainAckid) ackid → ackid.bytes.length < 1024 ∧
        if (Sqlite.ofOther fun _ => none).answers
            ((Sqlite.ofOther fun _ => none).gwSqliteExecute oldState.table (acknowledgeSql ackid))
        then Json.Plain agent7.bytes
        else agent7.bytes = [] := by
  refine answersJson_iff (ackidMessage_request _).post (.inl (ackidMessage_request _).route)
    (by decide +kernel) fun ackid request _ => ?_
  obtain rfl := Option.some.inj request.found
  decide +kernel

/-- The body has no id. -/
def emptyMessage : HttpMessage where
  method := gwHttpMethodPost
  uri := gwHttpUriAcknowledge
  body := mgMkStr (.ofString "\x7b\x7d")

theorem answersJson_fails :
    ¬∀ (sqlite : Sqlite) (env : HttpdEnv) (fuel : Nat) (hm : HttpMessage) (state : GwState),
      gwHttpdPrefixCheck hm.method gwHttpMethodPost = true →
      gwHttpdPrefixCheck hm.uri gwHttpUriAcknowledge = true →
      AnswersJson sqlite env fuel hm state := by
  intro every
  refine not_answersJson_missing (prefixCheck_self _) (prefixCheck_self _) ?_ rfl
    (every (.ofOther fun _ => none) ⟨fun _ => none, fun _ => none⟩ 0 emptyMessage oldState
      (prefixCheck_self _) (prefixCheck_self _))
  decide +kernel

end Guardwatch
