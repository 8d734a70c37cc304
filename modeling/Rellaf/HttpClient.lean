/-
`http_client.cpp`, and a call of a handler from the model that is sent to the model that
comes back.

`http_request` hands a body over, and with it the call is one of the handler: the body
is written as JSON, read into a new instance, and what the handler returns is written, a
plain as its text and anything else as JSON that can be read again
(`http_request_calls_handler`). `http_post` gives its body to
`http_request` as the content type. The body it sends is empty, so the handler gets the
new instance as it is (`http_post_body_iff`).

The way between the two sides is brpc's, a `Network` here.
-/
import Rellaf.HttpEntry
import Rellaf.JsonText

set_option autoImplicit false

open Rellaf.Cpp

namespace Rellaf.Brpc

open Models JsonToModel

variable {HttpMethod : Type}

/-! ## The client -/

/-- What is used of a `brpc::URI`. -/
structure Uri where
  path : Str
  query : List (Str × Str)

/-- The request in a client's `brpc::Controller`, with the calls of `SetHeader`. -/
structure ClientRequest (HttpMethod : Type) where
  method : HttpMethod
  uri : Uri
  content_type : Str
  headers : List (Str × Str)
  request_attachment : Str

/-- The rest of it, behind `CallMethod`. -/
structure ClientReply where
  status_code : Int
  response_attachment : Str
  content_type : Str
  reason_phrase : Str
  compress_type : Int
  failed : Bool
  canceled : Bool

/-- brpc, between a client and the service: how it reads a URL, whether a channel to an
address can be had, and a call over it. -/
structure Network (HttpMethod : Type) where
  set_http_url : Str → Uri
  init : (api : Str) → (timeout : Int) → Bool
  call_method : (api : Str) → (timeout : Int) → ClientRequest HttpMethod → ClientReply

structure HttpResponse where
  body : Str
  status : Int
  content_type : Str
  reason_phrase : Str
  compress_type : Int

/-- What goes into `response`. -/
def ClientReply.response (controller : ClientReply) : HttpResponse where
  body := controller.response_attachment
  status := controller.status_code
  content_type := controller.content_type
  reason_phrase := controller.reason_phrase
  compress_type := controller.compress_type

section http_request

variable (net : Network HttpMethod) (api : Str) (method : HttpMethod)
  (params headers : Std.ExtTreeMap Str Str) (content_type request_body : Str)
  (response : HttpResponse) (timeout : Int)

/-- The request that `http_request` makes. -/
def client_request : ClientRequest HttpMethod :=
  let uri := net.set_http_url api
  { method := method
    uri := { uri with query :=
      params.toList.foldl (fun query entry => MemberMap.put query entry.1 entry.2) uri.query }
    content_type := if !content_type.isEmpty then content_type else []
    headers := headers.toList
    request_attachment := if !request_body.isEmpty then request_body else [] }

/-- The value returned, and `response`. -/
def http_request : Int × HttpResponse :=
  if !net.init (cstr api) timeout then (-1, response)
  else
    let request := client_request net api method params headers content_type request_body
    let controller := net.call_method (cstr api) timeout request
    (if controller.failed || controller.canceled then -1 else 0, controller.response)

/-- `http_get`, with brpc's `HTTP_METHOD_GET`. -/
def http_get (get : HttpMethod) : Int × HttpResponse :=
  http_request net api get params ∅ [] [] response timeout

/-- `http_post`, with brpc's `HTTP_METHOD_POST`. The body stands where `http_request` has
the content type. -/
def http_post (post : HttpMethod) : Int × HttpResponse :=
  http_request net api post params ∅ request_body [] response timeout

theorem request_attachment_eq :
    (client_request net api method params headers content_type request_body).request_attachment =
      request_body := by
  cases request_body <;> rfl

theorem http_request_of_init (hinit : net.init (cstr api) timeout = true) :
    http_request net api method params headers content_type request_body response timeout =
      let controller := net.call_method (cstr api) timeout
        (client_request net api method params headers content_type request_body)
      (if controller.failed || controller.canceled then -1 else 0, controller.response) := by
  rw [http_request, hinit]
  rfl

end http_request

/-! ## The way to the service and back -/

/-- The status of a call that went well. -/
def is_success (status_code : Int) : Bool := 200 ≤ status_code && status_code < 300

/-- The request gets to the service, and its response to the client: a call fails when
the status is none of success. -/
structure Delivers (net : Network HttpMethod) (mapper : FunctionMapper (Wrapper HttpMethod))
    (api : Str) (timeout : Int) (request : ClientRequest HttpMethod)
    (cntl : Controller HttpMethod) : Prop where
  method : cntl.http_request.method = request.method
  path : cntl.http_request.path = request.uri.path
  query : cntl.http_request.query.Perm request.uri.query
  body : cntl.request_attachment = request.request_attachment
  reply : ∀ cntl', cntl.entry mapper = .ok cntl' →
    let reply := net.call_method (cstr api) timeout request
    reply.status_code = cntl'.http_response.status_code ∧
      reply.response_attachment = cntl'.response_attachment ∧
      reply.content_type = cntl'.http_response.content_type ∧
      reply.failed = !is_success cntl'.http_response.status_code ∧ reply.canceled = false

variable (calls : Calls)

/-- The text of the value is read as a value of the same text. -/
def Calls.Keeps (json : Json) : Prop :=
  calls.write json ≠ [] ∧ ∃ json', calls.parse (calls.write json) = some json' ∧ json.Alike json'

/-- The text of the model is read as a value of the same text. -/
def Calls.KeepsModel (m : Model) : Prop :=
  ∀ json, model_to_json_inner m = .ok json → calls.Keeps json

variable {calls}

/-- The text of a model is read into another one as the model is. -/
theorem json_to_model_text {P : Model → Prop} {json : Json} (hkeeps : calls.Keeps json)
    {t t' : Model} (ht : t.Proper P) (hread : json_to_model_inner json t = .ok t') :
    json_to_model calls.parse (calls.write json) t = .ok (true, t') := by
  obtain ⟨hne, json', hparse, halike⟩ := hkeeps
  have hempty : ¬ (calls.write json).isEmpty = true := by simpa using hne
  rw [json_to_model, if_neg hempty, hparse]
  dsimp only
  rw [(alike_iff halike ht).mp hread]
  rfl

/-! ## The service -/

theorem prepare_arg_req_body {ctx : HttpContext HttpMethod} {body : Str} {b : Model}
    (hb : (tag b (lit "REQ_BODY")).is_plain = .ok false) :
    prepare_arg calls ctx body (tag b (lit "REQ_BODY")) =
      json_to_model calls.parse body (tag b (lit "REQ_BODY")) := by
  have htag : (tag b (lit "REQ_BODY")).rellaf_tag = .ok (lit "REQ_BODY") := by
    cases b with
    | null => cases hb
    | _ => rfl
  rw [prepare_arg, htag, run_ok_bind, if_pos rfl, hb, run_ok_bind]
  rfl

/-- The three arguments, one after the other. -/
theorem prepare_args_three {ctx : HttpContext HttpMethod} {body : Str} {p v b p' v' b' : Model}
    (hp : prepare_arg calls ctx body p = .ok (true, p'))
    (hv : prepare_arg calls ctx body v = .ok (true, v'))
    (hb : prepare_arg calls ctx body b = .ok (true, b')) :
    prepare_args calls ctx body [p, v, b] = .ok (true, [p', v', b']) := by
  simp only [prepare_args, hp, hv, hb, run_ok_bind, Bool.not_true, Bool.false_eq_true, if_false,
    run_pure]

variable (calls) in
/-- The text for what a handler returns. -/
def returned_text (ret : Model) : Run Str := do
  if ← ret.is_plain then ret.str
  else
    let (_, text) ← model_to_json calls ret
    return text

/-- The answer to a request that has its arguments. -/
theorem entry_of_args {mapper : FunctionMapper (Wrapper HttpMethod)}
    {cntl : Controller HttpMethod} {p v b p' v' b' ret : Model}
    {base : HttpContext HttpMethod → Model → Model → Model →
      Run (Model × HttpContext HttpMethod)}
    {vars : Std.ExtTreeMap Str Str} {ctx : HttpContext HttpMethod} {text : Str}
    (hroute : entry mapper cntl.http_request.toHttpHeader =
      .ok (.ran (http_def_api calls p v b base) vars))
    (hargs : prepare_args calls (cntl.context vars) cntl.request_attachment
      [tag p (lit "REQ_PARAM"), tag v (lit "PATH_VAR"), tag b (lit "REQ_BODY")] =
        .ok (true, [p', v', b']))
    (hbase : base (cntl.context vars) p' v' b' = .ok (ret, ctx))
    (htext : returned_text calls ret = .ok text) :
    cntl.entry mapper = .ok ({ cntl with
      http_response := { ctx.response_header with content_type := lit "application/json" }
      response_attachment := ctx.response_body }.return_response text) := by
  have hcall : http_def_api calls p v b base (cntl.context vars) cntl.request_attachment [] =
      .ok (0, ctx, text) := by
    obtain ⟨plain, hplain, htext⟩ := run_bind_eq_ok.mp htext
    simp only [http_def_api, hargs, run_ok_bind, List.getD_cons_zero, List.getD_cons_succ, hbase,
      hplain]
    cases plain with
    | true =>
      have hstr : ret.str = .ok text := htext
      rw [hstr]
      rfl
    | false =>
      obtain ⟨⟨s, json_str⟩, hjson, htext⟩ := run_bind_eq_ok.mp htext
      obtain ⟨json, hinner, hjson⟩ := run_bind_eq_ok.mp hjson
      cases hjson
      cases htext
      rw [model_to_json, hinner]
      rfl
  rw [Controller.entry_eq, hroute, run_ok_bind, Controller.answer, hcall]
  rfl

/-! ## A call of a handler -/

section call

variable (net : Network HttpMethod) (mapper : FunctionMapper (Wrapper HttpMethod)) (api : Str)
  (method : HttpMethod) (params headers : Std.ExtTreeMap Str Str) (content_type body : Str)
  (response : HttpResponse) (timeout : Int) (cntl : Controller HttpMethod)
  (p v b p' v' b' : Model) (vars : Std.ExtTreeMap Str Str)
  (base : HttpContext HttpMethod → Model → Model → Model → Run (Model × HttpContext HttpMethod))

variable (calls) in
/-- The client gets the status that the handler left and the text for what it returned. For
anything but a plain, floating point aside, that can be read into models of the shape. -/
structure Returned (ret : Model) (ctx : HttpContext HttpMethod) (text : Str)
    (result : Int × HttpResponse) : Prop where
  value : result.1 = if is_success ctx.response_header.status_code then 0 else -1
  status : result.2.status = ctx.response_header.status_code
  content_type : result.2.content_type = lit "application/json"
  body : result.2.body = text
  reads : ret.is_plain = .ok false → ret.Proper Exact → calls.KeepsModel ret →
    ∀ t : Model, t.Proper Exact → t.shape = ret.shape →
      ∃ t', json_to_model calls.parse result.2.body t = .ok (true, t') ∧ t'.data = ret.data

variable {net mapper api method params headers content_type body response timeout cntl p v b p' v'
  b' vars base}

/-- The way back. -/
theorem http_request_returned (hinit : net.init (cstr api) timeout = true)
    (hdelivers : Delivers net mapper api timeout
      (client_request net api method params headers content_type body) cntl)
    (hroute : entry mapper cntl.http_request.toHttpHeader =
      .ok (.ran (http_def_api calls p v b base) vars))
    (hp : prepare_arg calls (cntl.context vars) body (tag p (lit "REQ_PARAM")) = .ok (true, p'))
    (hv : prepare_arg calls (cntl.context vars) body (tag v (lit "PATH_VAR")) = .ok (true, v'))
    (hb : prepare_arg calls (cntl.context vars) body (tag b (lit "REQ_BODY")) = .ok (true, b'))
    {ret : Model} {ctx : HttpContext HttpMethod} {text : Str}
    (hbase : base (cntl.context vars) p' v' b' = .ok (ret, ctx))
    (htext : returned_text calls ret = .ok text) :
    Returned calls ret ctx text
      (http_request net api method params headers content_type body response timeout) := by
  have hattachment := hdelivers.body
  rw [request_attachment_eq] at hattachment
  have hargs := prepare_args_three hp hv hb
  rw [← hattachment] at hargs
  obtain ⟨hstatus, hreply, htype, hfailed, hcanceled⟩ :=
    hdelivers.reply _ (entry_of_args hroute hargs hbase htext)
  have hfailed_eq : (net.call_method (cstr api) timeout (client_request net api method params
      headers content_type body)).failed = !is_success ctx.response_header.status_code := hfailed
  rw [http_request_of_init _ _ _ _ _ _ _ _ _ hinit]
  refine ⟨?_, hstatus, htype, hreply, fun hplain hret hkeeps t ht hshape => ?_⟩
  · dsimp only
    rw [hfailed_eq, hcanceled, Bool.or_false]
    cases is_success ctx.response_header.status_code <;> rfl
  · obtain ⟨json, hjson, -, hreads⟩ := round_trips hret
    obtain ⟨t', ht', hdata'⟩ := hreads t ht hshape
    -- the text is the JSON text
    have hwritten : text = calls.write json := by
      rw [returned_text, hplain, run_ok_bind, model_to_json, hjson] at htext
      cases htext
      rfl
    have hbody : (net.call_method (cstr api) timeout (client_request net api method params
        headers content_type body)).response_attachment = calls.write json := hreply.trans hwritten
    refine ⟨t', ?_, hdata'⟩
    dsimp only
    rw [ClientReply.response, hbody]
    exact json_to_model_text (hkeeps json hjson) ht ht'

end call

/-- The body of the handler before it is read. -/
theorem tag_fresh (tag_str : Str) (clazz : Clazz) (plains : List (Str × Plain))
    (lists : List (Str × List Model)) (objects : List (Str × Model)) (s : Str) :
    tag (fresh (.object tag_str clazz plains lists objects)) s =
      emptied (.object s clazz clazz.plain_names lists objects) := by
  rw [fresh_eq]
  rfl

/-- **A call over HTTP is a call of the handler.** The handler gets the plain members of
the model that was sent, floating point aside, and the client the text for what the handler
returned. -/
theorem http_request_calls_handler (calls : Calls) (net : Network HttpMethod)
    (mapper : FunctionMapper (Wrapper HttpMethod)) (api : Str) (method : HttpMethod)
    (params headers : Std.ExtTreeMap Str Str) (content_type : Str) (response : HttpResponse)
    (timeout : Int) (hinit : net.init (cstr api) timeout = true)
    (tag_str : Str) (clazz : Clazz) (plains : List (Str × Plain)) (lists : List (Str × List Model))
    (objects : List (Str × Model)) (body : Str)
    (hm : (Model.object tag_str clazz plains lists objects).Proper Exact)
    (hkeeps : calls.KeepsModel (.object tag_str clazz plains lists objects))
    (hbody : model_to_json calls (.object tag_str clazz plains lists objects) = .ok (true, body))
    (cntl : Controller HttpMethod)
    (hdelivers : Delivers net mapper api timeout
      (client_request net api method params headers content_type body) cntl)
    (p v p' v' : Model) (vars : Std.ExtTreeMap Str Str)
    (base : HttpContext HttpMethod → Model → Model → Model →
      Run (Model × HttpContext HttpMethod))
    (hroute : entry mapper cntl.http_request.toHttpHeader = .ok (.ran (http_def_api calls p v
      (fresh (.object tag_str clazz plains lists objects)) base) vars))
    (hp : prepare_arg calls (cntl.context vars) body (tag p (lit "REQ_PARAM")) = .ok (true, p'))
    (hv : prepare_arg calls (cntl.context vars) body (tag v (lit "PATH_VAR")) = .ok (true, v')) :
    ∃ b' : Model, b'.data = (emptied (.object tag_str clazz plains lists objects)).data ∧
      ∀ ret ctx text, base (cntl.context vars) p' v' b' = .ok (ret, ctx) →
        returned_text calls ret = .ok text →
        Returned calls ret ctx text
          (http_request net api method params headers content_type body response timeout) := by
  obtain ⟨json, b', hjson, hread, hdata⟩ := fresh_read tag_str (lit "REQ_BODY") hm
  obtain rfl : calls.write json = body := by
    rw [model_to_json, hjson] at hbody
    cases hbody
    rfl
  have htarget : (emptied (.object (lit "REQ_BODY") clazz clazz.plain_names lists objects)).Proper
      Exact := by
    cases id hm with
    | object hschema hnames hdetected hdefaults_detected hdefaults =>
      exact emptied_proper hm rfl hdefaults_detected hdefaults
  have hb : prepare_arg calls (cntl.context vars) (calls.write json)
      (tag (fresh (.object tag_str clazz plains lists objects)) (lit "REQ_BODY")) =
        .ok (true, b') := by
    rw [prepare_arg_req_body rfl, tag_fresh]
    exact json_to_model_text (hkeeps json hjson) htarget hread
  exact ⟨b', hdata, fun ret ctx text hbase htext =>
    http_request_returned hinit hdelivers hroute hp hv hb hbase htext⟩

/-- **The body of `http_post` does not arrive.** The handler is called with the new instance,
which is the model that was sent when the members of that have their defaults. -/
theorem http_post_body_iff (calls : Calls) (net : Network HttpMethod)
    (mapper : FunctionMapper (Wrapper HttpMethod)) (api : Str) (post : HttpMethod)
    (params : Std.ExtTreeMap Str Str) (response : HttpResponse) (timeout : Int)
    (hinit : net.init (cstr api) timeout = true)
    (tag_str : Str) (clazz : Clazz) (plains : List (Str × Plain)) (lists : List (Str × List Model))
    (objects : List (Str × Model)) (request_body : Str) (cntl : Controller HttpMethod)
    (hdelivers : Delivers net mapper api timeout
      (client_request net api post params ∅ request_body []) cntl)
    (p v p' v' : Model) (vars : Std.ExtTreeMap Str Str)
    (base : HttpContext HttpMethod → Model → Model → Model →
      Run (Model × HttpContext HttpMethod))
    (hroute : entry mapper cntl.http_request.toHttpHeader = .ok (.ran (http_def_api calls p v
      (fresh (.object tag_str clazz plains lists objects)) base) vars))
    (hp : prepare_arg calls (cntl.context vars) [] (tag p (lit "REQ_PARAM")) = .ok (true, p'))
    (hv : prepare_arg calls (cntl.context vars) [] (tag v (lit "PATH_VAR")) = .ok (true, v')) :
    ∃ b' : Model,
      (b'.data = (emptied (.object tag_str clazz plains lists objects)).data ↔
        plains.map (fun kp => (kp.1, kp.2.val)) =
          clazz.plain_names.map fun kp => (kp.1, kp.2.val)) ∧
      ∀ ret ctx text, base (cntl.context vars) p' v' b' = .ok (ret, ctx) →
        returned_text calls ret = .ok text →
        Returned calls ret ctx text
          (http_post net api params request_body response timeout post) := by
  refine ⟨emptied (.object (lit "REQ_BODY") clazz clazz.plain_names lists objects), ?_,
    fun ret ctx text hbase htext => ?_⟩
  · simp only [emptied, Model.data, Model.tree_object, ModelTree.object.injEq, true_and, and_true]
    exact eq_comm
  · refine http_request_returned hinit hdelivers hroute hp hv ?_ hbase htext
    rw [prepare_arg_req_body rfl, tag_fresh]
    rfl

/-! ## A service for users -/

def user_id (v : Int32) : Plain := ⟨[], .INT, .INT v, none, none⟩

def user_class : Clazz := ⟨lit "User", [(lit "id", user_id 0)]⟩

def user (v : Int32) : Model := .object [] user_class [(lit "id", user_id v)] [] []

def user_text : Str := lit "\x7b\"id\":7\x7d"

/-- jsoncpp, on the text of the user 7. -/
def user_calls : Calls where
  parse s := if s = user_text then some (.object [(lit "id", .int 7)]) else none
  write _ := user_text
  strtof _ := 0
  strtod _ := 0
  to_string _ := []

def user_handler : HttpContext Str → Model → Model → Model → Run (Model × HttpContext Str) :=
  fun ctx _ _ _ => .ok (user 7, ctx)

def user_service : Wrapper Str :=
  http_def_api user_calls (.void []) (.void []) (fresh (user 7)) user_handler

/-- Counts the users, and returns a plain. -/
def count : Model := .plain ⟨[], .INT, .INT 1, none, some fun _ => lit "1"⟩

def count_handler : HttpContext Str → Model → Model → Model → Run (Model × HttpContext Str) :=
  fun ctx _ _ _ => .ok (count, ctx)

def count_service : Wrapper Str :=
  http_def_api user_calls (.void []) (.void []) (fresh (user 7)) count_handler

/-- The service answers with the text. -/
def user_network (text : Str) : Network Str where
  set_http_url _ := ⟨lit "/users", []⟩
  init _ _ := true
  call_method _ _ _ := ⟨200, text, lit "application/json", lit "OK", 0, false, false⟩

/-- The service's side of `POST /users`. -/
def user_cntl (body : Str) : Controller Str :=
  ⟨⟨⟨lit "POST", lit "/users"⟩, [], 200⟩, body, ⟨200, []⟩, []⟩

theorem user_proper (v : Int32) : (user v).Proper Exact := by
  have hid : ∀ v, Exact (.plain (user_id v)) := fun v => ⟨rfl, by rintro ⟨⟩, by rintro ⟨⟩⟩
  have hnames : [lit "id"].Nodup := by decide
  refine .object rfl hnames ?_ ?_ ?_ ?_ ?_ ?_ ?_
  · simp [user_id, PlainVal.kind]
  · simp [user_class, user_id, PlainVal.kind]
  · simpa [user_class] using hid 0
  · simpa using hid v
  · simp
  · simp
  · simp

theorem user_keeps : user_calls.KeepsModel (user 7) := by
  intro json hjson
  cases hjson
  exact ⟨by decide, _, rfl, .refl _⟩

theorem user_route (service : Wrapper Str) : ∃ mapper,
    reg_all [⟨lit "/users", lit "users-POST-add", lit "POST", service⟩] = .ok mapper ∧
      ∀ body, entry mapper (user_cntl body).http_request.toHttpHeader = .ok (.ran service ∅) :=
  ⟨_, rfl, fun _ => rfl⟩

/-- The request gets to the service, and what it returns to the client. -/
theorem user_delivers {mapper : FunctionMapper (Wrapper Str)} {service : Wrapper Str}
    {content_type body text : Str}
    (hroute : entry mapper (user_cntl body).http_request.toHttpHeader = .ok (.ran service ∅))
    (hservice : service ((user_cntl body).context ∅) (user_cntl body).request_attachment [] =
      .ok (0, (user_cntl body).context ∅, text)) :
    Delivers (user_network text) mapper (lit "127.0.0.1:8123/users") (-1)
      (client_request (user_network text) (lit "127.0.0.1:8123/users") (lit "POST") ∅ ∅
        content_type body) (user_cntl body) where
  method := rfl
  path := rfl
  query := List.Perm.nil
  body := by rw [request_attachment_eq]; rfl
  reply := by
    intro cntl' hcntl'
    rw [Controller.entry_eq, hroute, run_ok_bind, Controller.answer, hservice] at hcntl'
    cases hcntl'
    exact ⟨rfl, rfl, rfl, rfl, rfl⟩

/-- The user 7 is sent and comes back. -/
theorem http_request_calls_handler_user :
    ∃ b' : Model, b'.data = (emptied (user 7)).data ∧
      Returned user_calls (user 7) ((user_cntl user_text).context ∅) user_text
        (http_request (user_network user_text) (lit "127.0.0.1:8123/users") (lit "POST") ∅ ∅ []
          user_text ⟨[], 0, [], [], 0⟩ (-1)) := by
  obtain ⟨mapper, -, hroute⟩ := user_route user_service
  obtain ⟨b', hdata, hreturned⟩ := http_request_calls_handler user_calls (user_network user_text)
    mapper _ _ _ _ _ _ _ rfl [] _ _ _ _ _ (user_proper 7) user_keeps rfl (user_cntl user_text)
    (user_delivers (hroute _) rfl) (.void []) (.void []) _ _ ∅ user_handler (hroute _) rfl rfl
  exact ⟨b', hdata, hreturned (user 7) _ user_text rfl rfl⟩

/-- The user 7 is posted, the handler gets the user 0, and the client the number of users. -/
theorem http_post_body_iff_user :
    ∃ b' : Model,
      (b'.data = (emptied (user 7)).data ↔
        [(lit "id", user_id 7)].map (fun kp => (kp.1, kp.2.val)) =
          user_class.plain_names.map fun kp => (kp.1, kp.2.val)) ∧
      Returned user_calls count ((user_cntl []).context ∅) (lit "1")
        (http_post (user_network (lit "1")) (lit "127.0.0.1:8123/users") ∅ user_text
          ⟨[], 0, [], [], 0⟩ (-1) (lit "POST")) := by
  obtain ⟨mapper, -, hroute⟩ := user_route count_service
  obtain ⟨b', hdata, hreturned⟩ := http_post_body_iff user_calls (user_network (lit "1")) mapper
    _ _ _ _ _ rfl [] _ _ _ _ _ (user_cntl []) (user_delivers (hroute _) rfl) (.void []) (.void [])
    _ _ ∅ count_handler (hroute _) rfl rfl
  exact ⟨b', hdata, hreturned count _ (lit "1") rfl rfl⟩

end Rellaf.Brpc
