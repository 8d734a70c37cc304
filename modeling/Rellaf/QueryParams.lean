/-
Parameters in a query: from the map that `http_get` is given to the members of the
handler's argument.

The client sets each parameter in the query of the URL, over one that the URL has of the
name. `prepare_args` goes through the query, in whatever order it has come, and sets the
plain members of the names. So with the texts of values for parameters the handler gets
these values, and the members that no parameter names are read from the URL or have their
defaults (`http_get_params_arrive`).
-/
import Rellaf.HttpClient
import Rellaf.PathValues

set_option autoImplicit false

open Rellaf.Cpp

namespace Rellaf.Brpc

open Models JsonToModel MemberMap

variable {HttpMethod : Type} (calls : Calls)

/-! ## The query -/

/-- The parameters of the members' names are texts of values that they can hold, floating
point aside. -/
structure Prints (params : Std.ExtTreeMap Str Str) (values : Str → PlainVal)
    (plains : List (Str × Plain)) : Prop where
  text : ∀ kp ∈ plains, ∀ val, params[kp.1]? = some val →
    val = type_detect_str calls (values kp.1)
  kind : ∀ kp ∈ plains, kp.1 ∈ params → kp.2.val.kind = (values kp.1).kind
  exact : ∀ kp ∈ plains, kp.1 ∈ params →
    (values kp.1).kind ≠ .FLOAT ∧ (values kp.1).kind ≠ .DOUBLE

variable (net : Network HttpMethod) (api : Str) (method : HttpMethod)
  (params headers : Std.ExtTreeMap Str Str) (content_type body : Str)

/-- A parameter, or else what the URL has. -/
theorem lookup_query (k : Str) :
    (client_request net api method params headers content_type body).uri.query.lookup k =
      params[k]?.or ((net.set_http_url api).query.lookup k) := by
  have hquery := lookup_foldl_put (toList_keys_nodup params) (net.set_http_url api).query k
  rw [lookup_toList] at hquery
  exact hquery

theorem query_nodup (huri : ((net.set_http_url api).query.map Prod.fst).Nodup) :
    ((client_request net api method params headers content_type body).uri.query.map
      Prod.fst).Nodup :=
  nodup_keys_foldl_put huri params.toList

variable {net api method params headers content_type body}

/-- The member that the parameters and the URL give a value. -/
theorem read_member_query {query : List (Str × Str)}
    (hquery : query.Perm
      (client_request net api method params headers content_type body).uri.query)
    (huri : ((net.set_http_url api).query.map Prod.fst).Nodup) {values : Str → PlainVal}
    {plains : List (Str × Plain)} (hprints : Prints calls params values plains)
    {kp : Str × Plain} (hkp : kp ∈ plains) :
    read_member calls query kp =
      if kp.1 ∈ params then (kp.1, { kp.2 with val := values kp.1 })
      else read_member calls (net.set_http_url api).query kp := by
  have hnodup : (query.map Prod.fst).Nodup :=
    (hquery.map Prod.fst).nodup_iff.mpr (query_nodup net api method params headers content_type
      body huri)
  have hlookup : query.lookup kp.1 =
      params[kp.1]?.or ((net.set_http_url api).query.lookup kp.1) := by
    rw [lookup_perm hquery hnodup, lookup_query]
  by_cases hmem : kp.1 ∈ params
  · obtain ⟨val, hval⟩ :=
      Option.isSome_iff_exists.mp (Std.ExtTreeMap.mem_iff_isSome_getElem?.mp hmem)
    obtain ⟨hfloat, hdouble⟩ := hprints.exact kp hkp hmem
    have hcast := cast_type_detect_str calls (hprints.kind kp hkp hmem) hfloat hdouble
    rw [hval, Option.some_or] at hlookup
    rw [read_member, hlookup, if_pos hmem]
    dsimp only
    rw [hprints.text kp hkp val hval, hcast]
  · have hnone : params[kp.1]? = none := Std.ExtTreeMap.getElem?_eq_none hmem
    rw [hnone, Option.none_or] at hlookup
    rw [read_member, hlookup, if_neg hmem, read_member]

/-! ## The argument of the handler -/

/-- `REQ_PARAM`, an object. -/
theorem prepare_arg_req_param {ctx : HttpContext HttpMethod} {body tag_str : Str} {clazz : Clazz}
    {plains : List (Str × Plain)} {lists : List (Str × List Model)} {objects : List (Str × Model)}
    (hread : ReadByCast clazz plains) (hnodup : (ctx.request_header.query.map Prod.fst).Nodup) :
    prepare_arg calls ctx body
        (tag (.object tag_str clazz plains lists objects) (lit "REQ_PARAM")) =
      .ok (true, .object (lit "REQ_PARAM") clazz
        (plains.map (read_member calls ctx.request_header.query)) lists objects) := by
  have harg : prepare_arg calls ctx body
      (tag (.object tag_str clazz plains lists objects) (lit "REQ_PARAM")) = (do
        return (true, ← set_plains calls ctx.request_header.query
          (.object (lit "REQ_PARAM") clazz plains lists objects))) := rfl
  rw [harg, set_plains_eq calls hread.keys hread.parse_func hread.nodup hnodup]
  rfl

variable (net)

/-- **The parameters of `http_get` arrive.** The handler is called with an object whose
members have the values of the parameters of their names, and where there is none, what
the URL says; and the client gets the text for what it returns. -/
theorem http_get_params_arrive (mapper : FunctionMapper (Wrapper HttpMethod)) (api : Str)
    (get : HttpMethod) (params : Std.ExtTreeMap Str Str) (response : HttpResponse) (timeout : Int)
    (hinit : net.init (cstr api) timeout = true)
    (huri : ((net.set_http_url api).query.map Prod.fst).Nodup) (cntl : Controller HttpMethod)
    (hdelivers : Delivers net mapper api timeout (client_request net api get params ∅ [] []) cntl)
    (tag_str : Str) (clazz : Clazz) (plains : List (Str × Plain)) (lists : List (Str × List Model))
    (objects : List (Str × Model)) (hread : ReadByCast clazz plains) (values : Str → PlainVal)
    (hprints : Prints calls params values plains) (v v' : Model) (vars : Std.ExtTreeMap Str Str)
    (base : HttpContext HttpMethod → Model → Model → Model →
      Run (Model × HttpContext HttpMethod))
    (hroute : entry mapper cntl.http_request.toHttpHeader = .ok (.ran (http_def_api calls
      (.object tag_str clazz plains lists objects) v (.void []) base) vars))
    (hv : prepare_arg calls (cntl.context vars) [] (tag v (lit "PATH_VAR")) = .ok (true, v')) :
    ∀ ret ctx text, base (cntl.context vars)
        (.object (lit "REQ_PARAM") clazz (plains.map fun kp =>
          if kp.1 ∈ params then (kp.1, { kp.2 with val := values kp.1 })
          else read_member calls (net.set_http_url api).query kp) lists objects)
        v' (.void (lit "REQ_BODY")) = .ok (ret, ctx) →
      returned_text calls ret = .ok text →
      Returned calls ret ctx text (http_get net api params response timeout get) := by
  intro ret ctx text hbase htext
  have hnodup : (cntl.http_request.query.map Prod.fst).Nodup :=
    (hdelivers.query.map Prod.fst).nodup_iff.mpr (query_nodup net api get params ∅ [] [] huri)
  have hp : prepare_arg calls (cntl.context vars) []
      (tag (.object tag_str clazz plains lists objects) (lit "REQ_PARAM")) =
        .ok (true, .object (lit "REQ_PARAM") clazz (plains.map fun kp =>
          if kp.1 ∈ params then (kp.1, { kp.2 with val := values kp.1 })
          else read_member calls (net.set_http_url api).query kp) lists objects) := by
    rw [prepare_arg_req_param calls hread hnodup]
    have hmembers : plains.map (read_member calls cntl.http_request.query) = plains.map fun kp =>
        if kp.1 ∈ params then (kp.1, { kp.2 with val := values kp.1 })
        else read_member calls (net.set_http_url api).query kp :=
      List.map_congr_left fun kp hkp =>
        read_member_query calls hdelivers.query huri hprints hkp
    rw [← hmembers]
    rfl
  exact http_request_returned hinit hdelivers hroute hp hv rfl hbase htext

/-- Hands its `REQ_PARAM` back, under no tag. -/
def echo_handler : HttpContext Str → Model → Model → Model → Run (Model × HttpContext Str) :=
  fun ctx p _ _ => .ok (tag p [], ctx)

def echo_service : Wrapper Str :=
  http_def_api user_calls (user 0) (.void []) (.void []) echo_handler

/-- The service's side of `GET /users?id=7`. -/
def echo_cntl : Controller Str :=
  ⟨⟨⟨lit "GET", lit "/users"⟩, [(lit "id", lit "7")], 200⟩, [], ⟨200, []⟩, []⟩

/-- The user 7 is asked for by the parameter `id`, and comes. -/
theorem http_get_params_arrive_user :
    Returned user_calls (user 7) (echo_cntl.context ∅) user_text
      (http_get (user_network user_text) (lit "127.0.0.1:8123/users")
        ((∅ : Std.ExtTreeMap Str Str).insert (lit "id") (lit "7"))
        ⟨[], 0, [], [], 0⟩ (-1) (lit "GET")) := by
  obtain ⟨mapper, hroute⟩ : ∃ mapper : FunctionMapper (Wrapper Str),
      entry mapper echo_cntl.http_request.toHttpHeader = .ok (.ran echo_service ∅) :=
    ⟨(reg_all [⟨lit "/users", lit "users-GET-get", lit "GET", echo_service⟩]).toOption.get rfl, rfl⟩
  have hdelivers : Delivers (user_network user_text) mapper (lit "127.0.0.1:8123/users") (-1)
      (client_request (user_network user_text) (lit "127.0.0.1:8123/users") (lit "GET")
        ((∅ : Std.ExtTreeMap Str Str).insert (lit "id") (lit "7")) ∅ [] []) echo_cntl := by
    refine ⟨rfl, rfl, .refl _, by rw [request_attachment_eq]; rfl, fun cntl' hcntl' => ?_⟩
    have hservice : echo_service (echo_cntl.context ∅) echo_cntl.request_attachment [] =
      .ok (0, echo_cntl.context ∅, user_text) := rfl
    rw [Controller.entry_eq, hroute, run_ok_bind, Controller.answer, hservice] at hcntl'
    cases hcntl'
    exact ⟨rfl, rfl, rfl, rfl, rfl⟩
  have hprints : Prints user_calls ((∅ : Std.ExtTreeMap Str Str).insert (lit "id") (lit "7"))
      (fun _ => .INT 7) [(lit "id", user_id 0)] := by
    refine ⟨fun kp hkp val hval => ?_, by simp [user_id, PlainVal.kind], by simp [PlainVal.kind]⟩
    obtain rfl := List.mem_singleton.mp hkp
    cases hval
    rfl
  exact http_get_params_arrive user_calls (user_network user_text) mapper _ _ _ _ _ rfl
    List.nodup_nil echo_cntl hdelivers [] user_class _ [] [] ⟨rfl, by decide, by simp [user_class, user_id]⟩
    (fun _ => .INT 7) hprints (.void []) _ ∅ echo_handler hroute rfl (user 7) _ user_text rfl rfl

end Rellaf.Brpc
