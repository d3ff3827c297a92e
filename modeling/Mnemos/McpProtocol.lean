import Mnemos.JsonRoundTrip
import Mnemos.McpTools

/-!
# Requests and answers

The messages of `mcp/protocol.cpp`: one line in, one line out. A line is a JSON
object with a method and an id; a message without an id is a notification and
gets no answer.
-/

namespace Mnemos

structure ToolProvider where
  listTools : Json
  hasTool : Bytes → Bool
  callTool : Bytes → Json → ToolResult

namespace Json

def isNull : Json → Bool
  | null => true
  | _ => false

def isObject : Json → Bool
  | object _ => true
  | _ => false

def members : Json → List (Bytes×Json)
  | object members => members
  | _ => []

end Json

namespace Mcp

def kMetaProtocolVersion : String := "io.modelcontextprotocol/protocolVersion"

def kMetaClientCaps : String := "io.modelcontextprotocol/clientCapabilities"

def kMetaServerInfo : String := "io.modelcontextprotocol/serverInfo"

def kServerName : Bytes := ascii "mnemos-mcp"

def kServerVersion : Bytes := ascii "0.1.0"

def kInstructions : Bytes :=
  ascii "Inspect and operate a mnemos (or redis) keyspace. Prefer the specific "++
  ascii "tools -- get, set, scan_keys, describe_key, server_info -- and fall back "++
  ascii "to redis_command for anything they do not cover. describe_key reports the "++
  ascii "in-memory encoding, which is how you tell a listpack from a hashtable."

def kParseError : ℤ := -32700

def kInvalidRequest : ℤ := -32600

def kMethodNotFound : ℤ := -32601

def kInvalidParams : ℤ := -32602

def kUnsupportedProtocolVersion : ℤ := -32022

def modernProtocolVersions : List Bytes := [ascii "2026-07-28"]

def legacyProtocolVersions : List Bytes :=
  [ascii "2025-11-25",ascii "2025-06-18",ascii "2025-03-26",ascii "2024-11-05"]

section Tools

def schemaOf (type description : String) : Json :=
  ((Json.object []).set "type" (.string (ascii type))).set "description"
    (.string (ascii description))

def textSchema (description : String) : Json := schemaOf "string" description

def numberSchema (description : String) : Json := schemaOf "integer" description

def objectSchema (properties : Json) (required : List String) : Json :=
  (((Json.object []).set "type" (.string (ascii "object"))).set "properties" properties).set
    "required" (.array (required.map fun r => .string (ascii r)))

def toolDescriptor (name : String) (description : Bytes) (schema : Json) : Json :=
  (((Json.object []).set "name" (.string (ascii name))).set "description"
    (.string description)).set "inputSchema" schema

def argvSchema : Json :=
  (((Json.object []).set "type" (.string (ascii "array"))).set "items"
    ((Json.object []).set "type" (.string (ascii "string")))).set "description"
      (.string (ascii "The command and its arguments, one array element each: "++
        ascii "[\"LPUSH\", \"mylist\", \"a\"]."))

def listTools (readOnly : Bool) : Json :=
  let command := toolDescriptor "redis_command"
    (ascii "Run any command against the server and return its reply as JSON. "++
      ascii "The escape hatch: use it for anything the other tools do not cover."++
      (if readOnly then
        ascii " This server is read-only, so commands that write or administer are refused."
      else []))
    (objectSchema ((Json.object []).set "argv" argvSchema) ["argv"])
  let get := toolDescriptor "get"
    (ascii "Read a string key. Returns null when it does not exist.")
    (objectSchema ((Json.object []).set "key" (textSchema "The key to read.")) ["key"])
  let set := toolDescriptor "set" (ascii "Write a string key, optionally with a TTL.")
    (objectSchema
      ((((Json.object []).set "key" (textSchema "The key to write.")).set "value"
        (textSchema "The value to store.")).set "ttl_seconds"
          (numberSchema "Expire the key after this many seconds.")) ["key","value"])
  let scanKeys := toolDescriptor "scan_keys"
    (ascii "Walk the whole keyspace with SCAN and return the matching keys. Safe on a "++
      ascii "large keyspace: it pages, and it never blocks the server the way KEYS does.")
    (objectSchema
      (((Json.object []).set "pattern"
        (textSchema "Glob pattern to match, e.g. \"user:*\". Default \"*\".")).set "count"
          (numberSchema "Maximum keys to return. Default 100, capped at 10000.")) [])
  let describeKey := toolDescriptor "describe_key"
    (ascii "Report a key's type, in-memory encoding, TTL and size without reading its "++
      ascii "contents. The encoding is the real one (listpack, intset, quicklist, "++
      ascii "skiplist, hashtable, embstr, int), which is how you tell a small collection "++
      ascii "from one that has been converted.")
    (objectSchema ((Json.object []).set "key" (textSchema "The key to describe.")) ["key"])
  let serverInfo := toolDescriptor "server_info"
    (ascii "Server statistics from INFO, parsed into an object of "++
      ascii "sections rather than returned as one blob.")
    (objectSchema ((Json.object []).set "section"
      (textSchema "One INFO section, e.g. \"memory\" or \"keyspace\". Omit for all of them.")) [])
  .array ([command,get]++(if readOnly then [] else [set])++[scanKeys,describeKey,serverInfo])

def hasTool (readOnly : Bool) (name : Bytes) : Bool :=
  if name=ascii "set" then !readOnly
  else
    name=ascii "redis_command" || name=ascii "get" || name=ascii "scan_keys" ||
      name=ascii "describe_key" || name=ascii "server_info"

def redisTools (readOnly : Bool) (callTool : Bytes → Json → ToolResult) : ToolProvider :=
  ⟨listTools readOnly,hasTool readOnly,callTool⟩

end Tools

section Answers

def serverInfo : Json :=
  ((Json.object []).set "name" (.string kServerName)).set "version" (.string kServerVersion)

def toolCapabilities : Json :=
  (Json.object []).set "tools" ((Json.object []).set "listChanged" (.boolean false))

def envelope (id : Json) : Json :=
  ((Json.object []).set "jsonrpc" (.string (ascii "2.0"))).set "id" id

def metaField (params : Option Json) (key : String) : Option Json :=
  (params.bind fun p => p.find "_meta").bind fun m => m.find key

def stringArray (values : List Bytes) : Json := .array (values.map .string)

variable [FloatText]

def errorBody (code : ℤ) (message : Bytes) (data : Json) : Json :=
  let err := ((Json.object []).set "code" (.number (FloatText.ofInt code))).set "message"
    (.string message)
  if data.isNull then err else err.set "data" data

def errorResponse (id : Json) (code : ℤ) (message : Bytes) (data : Json) : Bytes :=
  ((envelope id).set "error" (errorBody code message data)).serialise

def modernResult (result : Json) : Json :=
  let result := result.set "_meta" ((Json.object []).set kMetaServerInfo serverInfo)
  result.members.foldl (fun ordered m => ordered.insert m.1 m.2)
    ((Json.object []).set "resultType" (.string (ascii "complete")))

def resultResponse (id result : Json) (modern : Bool) : Bytes :=
  ((envelope id).set "result" (if modern then modernResult result else result)).serialise

end Answers

section Handling

variable [FloatText] (tools : ToolProvider) (id : Json)

def negotiated (params : Option Json) : Bytes :=
  match params.bind fun p => p.find "protocolVersion" with
  | some (.string asked) =>
    if legacyProtocolVersions.contains asked then asked else legacyProtocolVersions.headD []
  | _ => legacyProtocolVersions.headD []

def initializeResult (params : Option Json) : Json :=
  ((((Json.object []).set "protocolVersion" (.string (negotiated params))).set "capabilities"
    toolCapabilities).set "serverInfo" serverInfo).set "instructions" (.string kInstructions)

def discoverResult : Json :=
  (((Json.object []).set "supportedVersions"
    (stringArray (modernProtocolVersions++legacyProtocolVersions))).set "capabilities"
      toolCapabilities).set "instructions" (.string kInstructions)

def callResult (call : ToolResult) : Json :=
  let block := ((Json.object []).set "type" (.string (ascii "text"))).set "text"
    (.string call.text)
  ((Json.object []).set "content" (.array [block])).set "isError" (.boolean call.isError)

def callArguments (params : Option Json) : Json :=
  match params.bind fun p => p.find "arguments" with
  | some (.object members) => .object members
  | _ => .object []

def handleCall (params : Option Json) (modern : Bool) : Bytes :=
  match params.bind fun p => p.find "name" with
  | some (.string name) =>
    if !tools.hasTool name then
      errorResponse id kInvalidParams
        (ascii "Invalid params: unknown tool '"++name++ascii "'") .null
    else resultResponse id (callResult (tools.callTool name (callArguments params))) modern
  | _ => errorResponse id kInvalidParams (ascii "Invalid params: missing tool name") .null

def handleMethod (method : Bytes) (params : Option Json) (modern : Bool) : Bytes :=
  if method=ascii "initialize" then resultResponse id (initializeResult params) false
  else if method=ascii "server/discover" then resultResponse id discoverResult true
  else if method=ascii "ping" then resultResponse id (.object []) modern
  else if method=ascii "tools/list" then
    resultResponse id ((Json.object []).set "tools" tools.listTools) modern
  else if method=ascii "tools/call" then handleCall tools id params modern
  else errorResponse id kMethodNotFound (ascii "Method not found: "++method) .null

def versionData (declared : Bytes) : Json :=
  ((Json.object []).set "supported" (stringArray modernProtocolVersions)).set "requested"
    (.string declared)

def handleRequest (method : Bytes) (params : Option Json) : Bytes :=
  match metaField params kMetaProtocolVersion with
  | some (.string declared) =>
    if !modernProtocolVersions.contains declared then
      errorResponse id kUnsupportedProtocolVersion (ascii "Unsupported protocol version")
        (versionData declared)
    else if (metaField params kMetaClientCaps).isNone then
      errorResponse id kInvalidParams
        (ascii "Invalid params: _meta is missing "++ascii kMetaClientCaps) .null
    else handleMethod tools id method params true
  | _ => handleMethod tools id method params false

def handleMessage (message : Json) : Bytes :=
  match message.find "method" with
  | some (.string method) =>
    if id.isNull then [] else handleRequest tools id method (message.find "params")
  | _ =>
    if id.isNull then []
    else errorResponse id kInvalidRequest (ascii "Invalid Request: missing method") .null

def handleLine (line : Bytes) : Bytes :=
  if line.all Json.isBlank then []
  else
    match Json.parse line with
    | .error e => errorResponse .null kParseError (ascii "Parse error: "++e) .null
    | .ok message =>
      if !message.isObject then
        errorResponse .null kInvalidRequest
          (ascii "Invalid Request: expected a JSON object") .null
      else handleMessage tools ((message.find "id").getD .null) message

end Handling

section Heights

theorem height_insert_le {v w : Json} {n : ℕ} (hv : v.height ≤ n) (hw : w.height < n)
    (key : Bytes) : (v.insert key w).height ≤ n := by
  cases v with
  | object members =>
    rw [Json.insert,Json.height_object_le]
    intro m hm
    rcases Json.mem_setMember hm with rfl | hold
    · exact hw
    · exact Json.height_object_le.mp hv m hold
  | _ => exact hv

theorem height_set_le {v w : Json} {n : ℕ} (hv : v.height ≤ n) (hw : w.height < n)
    (key : String) : (v.set key w).height ≤ n :=
  height_insert_le hv hw (ascii key)

theorem height_empty_le (n : ℕ) : (Json.object []).height ≤ n := Nat.zero_le n

theorem find_height_lt {v w : Json} {key : String} (h : v.find key=some w) :
    w.height < v.height := by
  cases v with
  | object members =>
    rw [Json.find,Option.map_eq_some_iff] at h
    obtain ⟨m,hm,rfl⟩ := h
    exact Json.height_object_le.mp le_rfl m (List.mem_of_find?_eq_some hm)
  | _ => cases h

theorem modernResult_height {result : Json} {n : ℕ} (h : result.height ≤ n) (hn : 3 ≤ n) :
    (modernResult result).height ≤ n := by
  have hmeta : ((Json.object []).set kMetaServerInfo serverInfo).height < n := by
    have hconst : ((Json.object []).set kMetaServerInfo serverInfo).height=2 := by decide +kernel
    omega
  have hresult := height_insert_le h hmeta (ascii "_meta")
  have hmembers : ∀ m∈(result.insert (ascii "_meta")
      ((Json.object []).set kMetaServerInfo serverInfo)).members,m.2.height < n := by
    generalize result.insert (ascii "_meta") ((Json.object []).set kMetaServerInfo serverInfo)=v
      at hresult
    cases v with
    | object members => exact Json.height_object_le.mp hresult
    | _ => exact fun _ hm => absurd hm List.not_mem_nil
  have hfirst : ((Json.object []).set "resultType" (.string (ascii "complete"))).height ≤ n :=
    height_insert_le (Nat.zero_le n) (Nat.lt_of_lt_of_le (by decide) hn) _
  exact List.foldlRecOn (motive := fun ordered : Json => ordered.height ≤ n) _ _ hfirst
    fun ordered hordered m hm => height_insert_le hordered (hmembers m hm) m.1

theorem listTools_height (readOnly : Bool) : (listTools readOnly).height ≤ 10 := by
  cases readOnly <;> decide +kernel

theorem callResult_height (call : ToolResult) : (callResult call).height ≤ 20 := by
  have hblock : (((Json.object []).set "type" (.string (ascii "text"))).set "text"
      (.string call.text)).height ≤ 1 :=
    height_set_le (height_set_le (height_empty_le 1) (by simp [Json.height]) _)
      (by simp [Json.height]) _
  have hcontent : (Json.array [((Json.object []).set "type" (.string (ascii "text"))).set "text"
      (.string call.text)]).height < 20 := by
    refine Nat.lt_of_le_of_lt (m := 2) ?_ (by decide)
    rw [Json.height_array_le]
    intro v hv
    rw [List.mem_singleton.mp hv]
    omega
  exact height_set_le (height_set_le (height_empty_le 20) hcontent _) (by simp [Json.height]) _

theorem initializeResult_height (params : Option Json) :
    (initializeResult params).height ≤ 20 := by
  have hcapabilities : toolCapabilities.height < 20 := by decide +kernel
  have hinfo : Mcp.serverInfo.height < 20 := by decide +kernel
  have hversion : ((Json.object []).set "protocolVersion" (.string (negotiated params))).height
      ≤ 20 :=
    height_set_le (height_empty_le 20) (by simp [Json.height]) _
  exact height_set_le (height_set_le (height_set_le hversion hcapabilities _) hinfo _)
    (by simp [Json.height]) _

theorem versionData_height (declared : Bytes) : (versionData declared).height < 10 := by
  have hsupported : (stringArray modernProtocolVersions).height < 9 := by decide +kernel
  have hle : (versionData declared).height ≤ 9 :=
    height_set_le (height_set_le (height_empty_le 9) hsupported _) (by simp [Json.height]) _
  omega

end Heights

section Shape

variable [FloatText]

/-- The text of an answer to a request with this id, within the limit of the parser. -/
def Answers (id : Json) (out : Bytes) : Prop :=
  ∃ (key : String) (body : Json),(key="result" ∨ key="error") ∧
    body.height < kMaxJsonDepth ∧ out=((envelope id).set key body).serialise

theorem errorResponse_answers (id : Json) (code : ℤ) (message : Bytes) {data : Json}
    (hdata : data.height < 10) : Answers id (errorResponse id code message data) := by
  refine ⟨"error",errorBody code message data,Or.inr rfl,?_,rfl⟩
  have hplain : (((Json.object []).set "code" (.number (FloatText.ofInt code))).set "message"
      (.string message)).height ≤ 10 :=
    height_set_le (height_set_le (height_empty_le 10) (by simp [Json.height]) _)
      (by simp [Json.height]) _
  have hbody : (errorBody code message data).height ≤ 10 := by
    rw [errorBody]
    split
    · exact hplain
    · exact height_insert_le hplain hdata _
  exact Nat.lt_of_le_of_lt hbody (by decide)

theorem resultResponse_answers (id : Json) {result : Json} (hresult : result.height ≤ 20)
    (modern : Bool) : Answers id (resultResponse id result modern) := by
  refine ⟨"result",_,Or.inl rfl,?_,rfl⟩
  split
  · exact Nat.lt_of_le_of_lt (modernResult_height hresult (by decide)) (by decide)
  · exact Nat.lt_of_le_of_lt hresult (by decide)

variable {tools : ToolProvider} (htools : tools.listTools.height < 20) (id : Json)

theorem handleCall_answers (params : Option Json) (modern : Bool) :
    Answers id (handleCall tools id params modern) := by
  have hnull : Json.null.height < 10 := by decide
  rw [handleCall]
  split
  · split
    · exact errorResponse_answers id _ _ hnull
    · exact resultResponse_answers id (callResult_height _) modern
  · exact errorResponse_answers id _ _ hnull

include htools

theorem handleMethod_answers (method : Bytes) (params : Option Json) (modern : Bool) :
    Answers id (handleMethod tools id method params modern) := by
  have hdiscover : discoverResult.height ≤ 20 := by decide +kernel
  rw [handleMethod]
  split_ifs
  · exact resultResponse_answers id (initializeResult_height params) false
  · exact resultResponse_answers id hdiscover true
  · exact resultResponse_answers id (by decide) modern
  · exact resultResponse_answers id (height_set_le (height_empty_le 20) htools _) modern
  · exact handleCall_answers id params modern
  · exact errorResponse_answers id _ _ (by decide)

theorem handleRequest_answers (method : Bytes) (params : Option Json) :
    Answers id (handleRequest tools id method params) := by
  rw [handleRequest]
  split
  · split_ifs
    · exact errorResponse_answers id _ _ (versionData_height _)
    · exact errorResponse_answers id _ _ (by decide)
    · exact handleMethod_answers htools id method params true
  · exact handleMethod_answers htools id method params false

theorem handleMessage_answers (message : Json) (hid : id.isNull=false) :
    Answers id (handleMessage tools id message) := by
  rw [handleMessage]
  split
  · rw [hid]
    exact handleRequest_answers htools id _ _
  · rw [hid]
    exact errorResponse_answers id _ _ (by decide)

omit htools in
theorem handleMessage_notification (message : Json) (hid : id.isNull=true) :
    handleMessage tools id message=[] := by
  rw [handleMessage]
  split
  · rw [hid]
    rfl
  · rw [hid]
    rfl

end Shape

section Contents

variable [FloatText]

def answerOf (key : String) (id body : Json) : Json :=
  .object [(ascii "jsonrpc",.string (ascii "2.0")),(ascii "id",id),(ascii key,body)]

omit [FloatText] in
theorem envelope_set {key : String} (hkey : key="result" ∨ key="error") (id body : Json) :
    (envelope id).set key body=answerOf key id body := by
  rcases hkey with rfl | rfl <;> rfl

theorem answerOf_reread {key : String} (hkey : key="result" ∨ key="error") (id body : Json) :
    (answerOf key id body).reread=answerOf key id.reread body.reread := by
  rcases hkey with rfl | rfl <;> rfl

structure IsAnswer (out : Bytes) (answer : Json) : Prop where
  valid : isValidUtf8 out=true
  line : ∀ c∈out,0x20 ≤ c
  parsed : Json.parse out=.ok answer
  object : answer.isObject=true
  version : answer.find "jsonrpc"=some (.string (ascii "2.0"))
  either : (answer.find "result").isSome=!(answer.find "error").isSome

/-- An id as it comes back: a valid text is the same, a finite number is equal. -/
def SameId (id : Json) (answered : Option Json) : Prop :=
  (∀ s,id=.string s → isValidUtf8 s=true → answered=some (.string s)) ∧
  (∀ d,id=.number d → d.isFinite=true → ∃ d',answered=some (.number d') ∧ d'.eq d=true)

/-- Every finite number is printed as a number of the grammar. -/
def Spells : Prop := ∀ d : Double,d.isFinite=true → Json.IsNumber (FloatText.d2string d)

theorem Answers.parsed {id : Json} {out : Bytes} (hout : Answers id out) (hspells : Spells)
    (hid : id.height < kMaxJsonDepth) :
    ∃ (key : String) (body : Json),(key="result" ∨ key="error") ∧
      IsAnswer out (answerOf key id.reread body) := by
  obtain ⟨key,body,hkey,hbody,rfl⟩ := hout
  have hspelled : Json.Spelled ((envelope id).set key body) := fun d _ => hspells d
  have hclean := Json.clean_serialiseInto _ hspelled 0
  have hheight : ((envelope id).set key body).height ≤ kMaxJsonDepth :=
    height_set_le (height_set_le (height_set_le (height_empty_le _) (by decide +kernel) _) hid _)
      hbody _
  have hparse := Json.parse_reread hspelled hheight
  rw [envelope_set hkey,answerOf_reread hkey] at hparse
  refine ⟨key,body.reread,hkey,(isValidUtf8_iff _).mpr hclean.1,hclean.2,?_,rfl,rfl,?_⟩
  · rw [envelope_set hkey]
    exact hparse
  · rcases hkey with rfl | rfl <;> rfl

theorem sameId_reread (hexact : FloatText.Exact) (id : Json) : SameId id (some id.reread) := by
  constructor
  · rintro s rfl hs
    rw [Json.reread,sanitiseUtf8_eq hs]
  · rintro d rfl hd
    refine ⟨_,congrArg some (Json.rereadNumber_finite hd),?_⟩
    exact hexact.strtod_d2string d (by simpa using ((Double.isFinite_iff d).mp hd).1)

theorem Answers.ne_nil {id : Json} {out : Bytes} (hout : Answers id out) : out≠[] := by
  obtain ⟨key,body,hkey,_,rfl⟩ := hout
  rw [envelope_set hkey,Json.serialise,answerOf,Json.serialiseInto,if_neg (by decide)]
  exact List.cons_ne_nil _ _

/-- A line that asks for no answer: a blank one, or an object without an id. -/
def Silent (line : Bytes) : Prop :=
  line.all Json.isBlank=true ∨ ∃ members,Json.parse line=.ok (.object members) ∧
    ((Json.object members).find "id"=none ∨ (Json.object members).find "id"=some .null)

theorem handleLine_silent {line : Bytes} (h : Silent line) (tools : ToolProvider) :
    handleLine tools line=[] := by
  rw [handleLine]
  rcases h with hblank | ⟨members,hparse,hid⟩
  · rw [if_pos hblank]
  · have hnull : (((Json.object members).find "id").getD .null).isNull=true := by
      rcases hid with hid | hid <;> rw [hid] <;> rfl
    split
    · rfl
    · rw [hparse]
      exact handleMessage_notification _ _ hnull

/-- Every other line is answered: with the id of the object, or with null where the line is
no object. -/
theorem handleLine_answered {line : Bytes} (h : ¬Silent line) {tools : ToolProvider}
    (htools : tools.listTools.height < 20) :
    ∃ id : Json,Answers id (handleLine tools line) ∧ id.height < kMaxJsonDepth ∧
      ((∀ members,Json.parse line≠.ok (.object members)) → id=.null) ∧
      ∀ members id',Json.parse line=.ok (.object members) →
        (Json.object members).find "id"=some id' → id=id' := by
  rw [Silent,not_or,not_exists] at h
  rw [handleLine,if_neg h.1]
  cases hparse : Json.parse line with
  | error e =>
    exact ⟨.null,errorResponse_answers .null _ _ (by decide),by decide,fun _ => rfl,
      fun _ _ hobject => nomatch hobject⟩
  | ok message =>
    dsimp only
    by_cases hobject : message.isObject=true
    · cases message with
      | object members =>
        have hheight := Json.parse_height hparse
        have hid := h.2 members
        rw [hparse] at hid
        cases hfind : (Json.object members).find "id" with
        | none => exact absurd ⟨rfl,Or.inl hfind⟩ hid
        | some id =>
          have hnull : id.isNull=false := by
            cases id with
            | null => exact absurd ⟨rfl,Or.inr hfind⟩ hid
            | _ => rfl
          have hlow := find_height_lt hfind
          refine ⟨id,handleMessage_answers htools id _ hnull,by omega,
            fun hnone => absurd rfl (hnone members),fun members' id' heq hfound => ?_⟩
          cases heq
          rw [hfind] at hfound
          exact Option.some.inj hfound
      | _ => cases hobject
    · rw [Bool.not_eq_true] at hobject
      rw [hobject]
      refine ⟨.null,errorResponse_answers .null _ _ (by decide),by decide,fun _ => rfl,
        fun members _ heq => ?_⟩
      cases heq
      cases hobject

/-- Every line of any bytes: blank lines and notifications get no answer; every other line
gets one line that parses to an object with the version, either a result or an error, and
the id of the request. -/
theorem handleLine_answers (hspells : Spells) (hexact : FloatText.Exact) (readOnly : Bool)
    (callTool : Bytes → Json → ToolResult) (line : Bytes) :
    (handleLine (redisTools readOnly callTool) line=[] ↔
      line.all Json.isBlank=true ∨ ∃ members,Json.parse line=.ok (.object members) ∧
        ((Json.object members).find "id"=none ∨
          (Json.object members).find "id"=some .null)) ∧
    (handleLine (redisTools readOnly callTool) line≠[] →
      ∃ answer,IsAnswer (handleLine (redisTools readOnly callTool) line) answer ∧
        ((∀ members,Json.parse line≠.ok (.object members)) → answer.find "id"=some .null) ∧
        ∀ members id,Json.parse line=.ok (.object members) →
          (Json.object members).find "id"=some id → SameId id (answer.find "id")) := by
  have htools : (redisTools readOnly callTool).listTools.height < 20 :=
    Nat.lt_of_le_of_lt (listTools_height readOnly) (by decide)
  constructor
  · refine ⟨fun hempty => ?_,fun hsilent => handleLine_silent hsilent _⟩
    by_contra hloud
    obtain ⟨id,hanswers,_⟩ := handleLine_answered hloud htools
    exact hanswers.ne_nil hempty
  · intro hne
    have hloud : ¬Silent line := fun hsilent => hne (handleLine_silent hsilent _)
    obtain ⟨id,hanswers,hheight,hnull,hsame⟩ := handleLine_answered hloud htools
    obtain ⟨key,body,_,hanswer⟩ := hanswers.parsed hspells hheight
    have hfound : (answerOf key id.reread body).find "id"=some id.reread := rfl
    refine ⟨_,hanswer,fun hnone => ?_,fun members id' hparse hfind => ?_⟩
    · rw [hfound,hnull hnone]
      rfl
    · rw [hfound,← hsame members id' hparse hfind]
      exact sameId_reread hexact id

end Contents

section Reference

attribute [local instance] DoubleText.spelled

theorem isNumber_intDecimal (n : ℤ) : Json.IsNumber (intDecimal n) := by
  have hwhole : Json.IsWhole (natDecimal n.natAbs) := by
    by_cases hzero : n.natAbs=0
    · rw [hzero]
      exact Or.inl rfl
    · exact Or.inr ⟨natDecimal_ne_nil _,natDecimal_head hzero,natDecimal_digits _⟩
  rw [intDecimal]
  split
  · exact ⟨[45],natDecimal n.natAbs,[],[],by simp,Or.inr rfl,hwhole,Or.inl rfl,Or.inl rfl⟩
  · exact ⟨[],natDecimal n.natAbs,[],[],by simp,Or.inl rfl,hwhole,Or.inl rfl,Or.inl rfl⟩

theorem spells_reference : Spells := by
  intro d _
  change Json.IsNumber (DoubleText.spell d)
  rw [DoubleText.spell]
  split
  · exact isNumber_intDecimal _
  · have hfraction : Json.IsFraction (46::natDecimal d.bits.toNat) :=
      Or.inr ⟨natDecimal d.bits.toNat,rfl,natDecimal_ne_nil _,natDecimal_digits _⟩
    exact ⟨[],[48],46::natDecimal d.bits.toNat,[],by simp,Or.inl rfl,Or.inl rfl,hfraction,
      Or.inl rfl⟩

theorem handleLine_answers_array :
    handleLine (redisTools true fun _ _ => ⟨[0xFF],true⟩) (ascii "[]")≠[] ∧
    ∃ answer,IsAnswer (handleLine (redisTools true fun _ _ => ⟨[0xFF],true⟩) (ascii "[]")) answer ∧
      answer.find "id"=some .null := by
  have hall := handleLine_answers spells_reference DoubleText.spelled_exact true
    (fun _ _ => ⟨[0xFF],true⟩) (ascii "[]")
  have hparse : Json.parse (ascii "[]")=.ok (.array []) := rfl
  have hne : handleLine (redisTools true fun _ _ => ⟨[0xFF],true⟩) (ascii "[]")≠[] := by
    intro hempty
    rcases hall.1.mp hempty with hblank | ⟨members,hmembers,_⟩
    · cases hblank
    · rw [hparse] at hmembers
      cases hmembers
  obtain ⟨answer,hanswer,hnull,_⟩ := hall.2 hne
  refine ⟨hne,answer,hanswer,hnull fun members hmembers => ?_⟩
  rw [hparse] at hmembers
  cases hmembers

end Reference

end Mcp

end Mnemos
