/-
From an HTTP request to the status of its response: `prepare_args`, the wrapper that
`rellaf_brpc_http_def_api` makes around a handler, `invoke` and `entry`.

A wrapper returns -1 where it does not get as far as the handler, which for one made by
the macro is a request body that the JSON reader rejects (`http_def_api_ret`). `entry`
then sets the status 500 in the header of the request, so the response goes out with
the status it had: `status_told_iff` says when this is noticed.
-/
import Rellaf.FunctionMapper
import Rellaf.JsonToModel
import Rellaf.ModelCopy

set_option autoImplicit false

open Rellaf.Cpp

namespace Rellaf.Brpc

open Models JsonToModel

/-- What is called outside of the sources: the reader and the writer of JSON, `strtof`
and `strtod`, and what the function that `TypeDetect` installs writes. -/
structure Calls where
  parse : Str → Option Json
  write : Json → Str
  strtof : Str → Float32
  strtod : Str → Float
  to_string : PlainVal → Str

variable {HttpMethod : Type} (calls : Calls)

/-! ## Values from strings -/

/-- `strtol(s, nullptr, 10)` with a 64-bit `long`, and `strtoll`: a value that does not
fit becomes the nearest one. -/
def strtol (s : Str) : Int64 :=
  match s.dropWhile isspace with
  | 45 :: ds => Int64.ofInt (max (-2 ^ 63) (-(digits_value ds 0 : Int)))
  | 43 :: ds => Int64.ofInt (min (2 ^ 63 - 1) (digits_value ds 0))
  | ds => Int64.ofInt (min (2 ^ 63 - 1) (digits_value ds 0))

/-- `cast<T>(val)`, `T` being the type of the value given. Nothing is thrown. -/
def cast (val : Str) : PlainVal → PlainVal
  | .CHAR _ => .CHAR (val.headD 0)
  | .INT16 _ => .INT16 (strtol val).toInt16
  | .INT _ => .INT (strtol val).toInt32
  | .INT64 _ => .INT64 (strtol val)
  | .UINT16 _ => .UINT16 (strtoul val).toUInt16
  | .UINT32 _ => .UINT32 (strtoul val).toUInt32
  | .UINT64 _ => .UINT64 (strtoul val)
  | .BOOL _ => .BOOL (val.any (· ≠ 48))
  | .FLOAT _ => .FLOAT (calls.strtof (cstr val))
  | .DOUBLE _ => .DOUBLE (calls.strtod (cstr val))
  | .STR _ => .STR val

/-- `Plain<T>::set_parse` -/
def plain_set_parse (p : Plain) (val_str : Str) : Run (Bool × Plain) :=
  match p.parse_func with
  | some parse_func => do return (true, { p with val := ← parse_func val_str })
  | none => .ok (true, { p with val := cast calls val_str p.val })

/-- The virtual `set_parse`. -/
def set_parse (m : Model) (val_str : Str) : Run (Bool × Model) :=
  match m with
  | .null => .error .undefined
  | .void _ => .ok (true, m)
  | .plain p => do
    let (s, p) ← plain_set_parse calls p val_str
    return (s, .plain p)
  | .list _ _ | .object _ _ _ _ _ => .ok (false, m)

/-- `set_plain` of an `Object*`. A member that the class declares and the instance has
lost is created. -/
def object_set_plain (m : Model) (key val_str : Str) : Run (Bool × Model) :=
  match m with
  | .object tag clazz plains lists objects =>
    match clazz.plain_names.lookup key with
    | none => .ok (false, m)
    | some dft => do
      let plain := (plains.lookup key).getD (dft.create calls.to_string)
      let (_, plain) ← plain_set_parse calls plain val_str
      return (true, .object tag clazz (MemberMap.put plains key plain) lists objects)
  | _ => .error .undefined

/-- `set_plain` for one pair after another. -/
def set_plains (entries : List (Str × Str)) (m : Model) : Run Model :=
  entries.foldlM (fun m entry => do
    let (_, m) ← object_set_plain calls m entry.1 entry.2
    return m) m

/-! ## The arguments of a handler -/

structure RequestHeader (HttpMethod : Type) extends HttpHeader HttpMethod where
  /-- from `QueryBegin()` to `QueryEnd()` -/
  query : List (Str × Str)
  status_code : Int

structure ResponseHeader where
  status_code : Int
  content_type : Str

structure HttpContext (HttpMethod : Type) where
  request_header : RequestHeader HttpMethod
  request_body : Str
  path_vars : Std.ExtTreeMap Str Str
  response_header : ResponseHeader
  response_body : Str

/-- `tag(tag_str)` -/
def tag (m : Model) (tag_str : Str) : Model :=
  match m with
  | .null => .null
  | .void _ => .void tag_str
  | .plain p => .plain { p with tag := tag_str }
  | .list _ items => .list tag_str items
  | .object _ clazz plains lists objects => .object tag_str clazz plains lists objects

/-- One turn of the loop: the argument, and `false` where the loop is left. -/
def prepare_arg (ctx : HttpContext HttpMethod) (body : Str) (arg : Model) : Run (Bool × Model) := do
  let rellaf_tag ← arg.rellaf_tag
  if rellaf_tag = lit "REQ_BODY" then
    if ← arg.is_plain then set_parse calls arg body
    else json_to_model calls.parse body arg
  else if rellaf_tag = lit "REQ_PARAM" then
    if ← arg.is_object then return (true, ← set_plains calls ctx.request_header.query arg)
    else return (true, arg)
  else if rellaf_tag = lit "PATH_VAR" then
    if ← arg.is_object then return (true, ← set_plains calls ctx.path_vars.toList arg)
    else if (← arg.is_plain) && !ctx.path_vars.isEmpty then do
      let (_, arg) ← set_parse calls arg (ctx.path_vars.toList.head?.map Prod.snd |>.getD [])
      return (true, arg)
    else return (true, arg)
  else return (true, arg)

/-- `prepare_args(ctx, body, args...)`: the value returned and the arguments. -/
def prepare_args (ctx : HttpContext HttpMethod) (body : Str) : List Model → Run (Bool × List Model)
  | [] => return (true, [])
  | arg :: args => do
    let (s, arg) ← prepare_arg calls ctx body arg
    if !s then return (false, arg :: args)
    else
      let (s, args) ← prepare_args ctx body args
      return (s, arg :: args)

/-- `model_to_json(model, json_str)`: the value returned and the text. -/
def model_to_json (model : Model) : Run (Bool × Str) := do
  return (true, calls.write (← model_to_json_inner model))

/-- A function in `_funcs`: the value returned, and the context and `ret_body` as the
call leaves them. -/
abbrev Wrapper (HttpMethod : Type) : Type :=
  HttpContext HttpMethod → (body ret_body : Str) → Run (Int × HttpContext HttpMethod × Str)

/-- The function that `rellaf_brpc_http_def_api` registers. `p`, `v` and `b` are the
new arguments, `base` is the handler. -/
def http_def_api (p v b : Model)
    (base : HttpContext HttpMethod → Model → Model → Model → Run (Model × HttpContext HttpMethod)) :
    Wrapper HttpMethod := fun ctx body ret_body => do
  let (s, args) ← prepare_args calls ctx body
    [tag p (lit "REQ_PARAM"), tag v (lit "PATH_VAR"), tag b (lit "REQ_BODY")]
  if !s then return (-1, ctx, ret_body)
  else
    let (ret, ctx) ← base ctx (args.getD 0 p) (args.getD 1 v) (args.getD 2 b)
    if ← ret.is_plain then return (0, ctx, ← ret.str)
    else
      let (s, ret_body) ← model_to_json calls ret
      if !s then return (-1, ctx, ret_body) else return (0, ctx, ret_body)

/-! ## What a wrapper returns -/

/-- The body is text that the reader rejects, and is not for a plain, which takes any
text. -/
def Rejects (b : Model) (body : Str) : Prop :=
  b.is_plain ≠ .ok true ∧ body ≠ [] ∧ calls.parse body = none

theorem rellaf_tag_tag {m : Model} {tag_str t : Str} (h : (tag m tag_str).rellaf_tag = .ok t) :
    t = tag_str := by
  cases m <;> cases h <;> rfl

theorem is_plain_tag (m : Model) (tag_str : Str) : (tag m tag_str).is_plain = m.is_plain := by
  cases m <;> rfl

/-- A plain is read by a function of its own or by `cast`, and neither reports an error. -/
theorem set_parse_of_is_plain {m m' : Model} {val_str : Str} {s : Bool}
    (hplain : m.is_plain = .ok true) (h : set_parse calls m val_str = .ok (s, m')) : s = true := by
  cases m with
  | plain p =>
    obtain ⟨⟨s', p'⟩, hset, h⟩ := run_bind_eq_ok.mp h
    cases h
    unfold plain_set_parse at hset
    split at hset
    next f _ =>
      obtain ⟨v, -, hset⟩ := run_bind_eq_ok.mp hset
      cases hset
      rfl
    next =>
      cases hset
      rfl
  | null => cases hplain
  | void _ => cases hplain
  | list _ _ => cases hplain
  | object _ _ _ _ _ => cases hplain

/-- The argument for the body. -/
theorem prepare_arg_body {ctx : HttpContext HttpMethod} {body : Str} {b arg : Model} {s : Bool}
    (h : prepare_arg calls ctx body (tag b (lit "REQ_BODY")) = .ok (s, arg)) :
    s = false ↔ Rejects calls b body := by
  obtain ⟨t, ht, h⟩ := run_bind_eq_ok.mp h
  rw [rellaf_tag_tag ht, if_pos rfl] at h
  obtain ⟨plain, hplain, h⟩ := run_bind_eq_ok.mp h
  unfold Rejects
  rw [← is_plain_tag b (lit "REQ_BODY"), hplain]
  cases plain with
  | true =>
    rw [set_parse_of_is_plain calls hplain h]
    simp
  | false =>
    have h : json_to_model calls.parse body (tag b (lit "REQ_BODY")) = .ok (s, arg) := h
    unfold json_to_model at h
    cases body with
    | nil =>
      cases h
      simp
    | cons c body =>
      rw [if_neg (by simp)] at h
      cases hparse : calls.parse (c :: body) with
      | none =>
        rw [hparse] at h
        cases h
        simp
      | some json =>
        rw [hparse] at h
        obtain ⟨m, -, h⟩ := run_bind_eq_ok.mp h
        cases h
        simp

/-- The other arguments are not refused. -/
theorem prepare_arg_other {ctx : HttpContext HttpMethod} {body tag_str : Str} {m arg : Model}
    {s : Bool} (htag : tag_str ≠ lit "REQ_BODY")
    (h : prepare_arg calls ctx body (tag m tag_str) = .ok (s, arg)) : s = true := by
  obtain ⟨t, ht, h⟩ := run_bind_eq_ok.mp h
  rw [rellaf_tag_tag ht, if_neg htag] at h
  by_cases hparam : tag_str = lit "REQ_PARAM"
  · rw [if_pos hparam] at h
    obtain ⟨object, -, h⟩ := run_bind_eq_ok.mp h
    cases object with
    | true =>
      obtain ⟨m, -, h⟩ := run_bind_eq_ok.mp h
      cases h
      rfl
    | false =>
      cases h
      rfl
  rw [if_neg hparam] at h
  by_cases hvar : tag_str = lit "PATH_VAR"
  · rw [if_pos hvar] at h
    obtain ⟨object, -, h⟩ := run_bind_eq_ok.mp h
    cases object with
    | true =>
      obtain ⟨m, -, h⟩ := run_bind_eq_ok.mp h
      cases h
      rfl
    | false =>
      obtain ⟨plain, -, h⟩ := run_bind_eq_ok.mp h
      dsimp only at h
      split at h
      next =>
        obtain ⟨⟨s', m⟩, -, h⟩ := run_bind_eq_ok.mp h
        cases h
        rfl
      next =>
        cases h
        rfl
  · rw [if_neg hvar] at h
    cases h
    rfl

/-- One argument, and the rest behind it. -/
theorem prepare_args_cons {ctx : HttpContext HttpMethod} {body : Str} {arg : Model}
    {args args' : List Model} {s : Bool}
    (h : prepare_args calls ctx body (arg :: args) = .ok (s, args')) :
    ∃ t arg', prepare_arg calls ctx body arg = .ok (t, arg') ∧
      (t = false ∧ s = false ∨
        t = true ∧ ∃ rest, prepare_args calls ctx body args = .ok (s, rest)) := by
  obtain ⟨⟨t, arg'⟩, harg, h⟩ := run_bind_eq_ok.mp h
  refine ⟨t, arg', harg, ?_⟩
  cases t with
  | false =>
    cases h
    exact .inl ⟨rfl, rfl⟩
  | true =>
    obtain ⟨⟨s', rest⟩, hrest, h⟩ := run_bind_eq_ok.mp h
    cases h
    exact .inr ⟨rfl, rest, hrest⟩

/-- **What a wrapper of the macro returns.** It returns -1 for a body that is rejected, and
0 behind the handler. -/
theorem http_def_api_ret {p v b : Model}
    {base : HttpContext HttpMethod → Model → Model → Model →
      Run (Model × HttpContext HttpMethod)}
    {ctx ctx' : HttpContext HttpMethod} {body ret_body ret_body' : Str} {ret : Int}
    (h : http_def_api calls p v b base ctx body ret_body = .ok (ret, ctx', ret_body')) :
    (Rejects calls b body ∧ ret = -1 ∧ ctx' = ctx) ∨ (¬ Rejects calls b body ∧ ret = 0) := by
  obtain ⟨⟨s, args⟩, hargs, h⟩ := run_bind_eq_ok.mp h
  have hs : s = false ↔ Rejects calls b body := by
    obtain ⟨t, p', hp, ⟨rfl, -⟩ | ⟨-, rest, hrest⟩⟩ := prepare_args_cons calls hargs
    · cases prepare_arg_other calls (by decide) hp
    obtain ⟨t, v', hv, ⟨rfl, -⟩ | ⟨-, rest', hrest⟩⟩ := prepare_args_cons calls hrest
    · cases prepare_arg_other calls (by decide) hv
    obtain ⟨t, b', hb, hcases⟩ := prepare_args_cons calls hrest
    rw [← prepare_arg_body calls hb]
    rcases hcases with ⟨rfl, rfl⟩ | ⟨rfl, rest'', hnil⟩
    · exact Iff.rfl
    · cases hnil
      exact Iff.rfl
  cases s with
  | false =>
    cases h
    exact .inl ⟨hs.mp rfl, rfl, rfl⟩
  | true =>
    refine .inr ⟨fun hrejects => Bool.false_ne_true (hs.mpr hrejects).symm, ?_⟩
    obtain ⟨⟨r, ctx₁⟩, -, h⟩ := run_bind_eq_ok.mp h
    obtain ⟨plain, -, h⟩ := run_bind_eq_ok.mp h
    cases plain with
    | true =>
      obtain ⟨text, -, h⟩ := run_bind_eq_ok.mp h
      cases h
      rfl
    | false =>
      obtain ⟨⟨t, text⟩, hjson, h⟩ := run_bind_eq_ok.mp h
      obtain ⟨json, -, hjson⟩ := run_bind_eq_ok.mp hjson
      cases hjson
      cases h
      rfl

/-! ## `entry` -/

/-- The data of a `brpc::Controller`. -/
structure Controller (HttpMethod : Type) where
  http_request : RequestHeader HttpMethod
  request_attachment : Str
  http_response : ResponseHeader
  response_attachment : Str

namespace Controller

variable (cntl : Controller HttpMethod)

def context (vars : Std.ExtTreeMap Str Str) : HttpContext HttpMethod :=
  ⟨cntl.http_request, cntl.request_attachment, vars, cntl.http_response, cntl.response_attachment⟩

/-- `http_response().set_status_code(status_code)` -/
def set_response_status (status_code : Int) : Controller HttpMethod :=
  { cntl with http_response := { cntl.http_response with status_code := status_code } }

/-- `http_request().set_status_code(status_code)` -/
def set_request_status (status_code : Int) : Controller HttpMethod :=
  { cntl with http_request := { cntl.http_request with status_code := status_code } }

/-- `return_response(cntl, raw)` -/
def return_response (raw : Str) : Controller HttpMethod :=
  { cntl with response_attachment := raw }

/-- `FunctionMapper::invoke`: the value returned, the controller and `ret_body`. -/
def invoke (mapper : FunctionMapper (Wrapper HttpMethod)) (name : Str)
    (vars : Std.ExtTreeMap Str Str) (ret_body : Str) :
    Run (Int × Controller HttpMethod × Str) :=
  match mapper._funcs name with
  | none => return (-1, cntl, ret_body)
  | some func => do
    let (ret, ctx, ret_body) ← func (cntl.context vars) cntl.request_attachment ret_body
    let http_response := { ctx.response_header with content_type := lit "application/json" }
    return (ret, { cntl with
      http_response := http_response, response_attachment := ctx.response_body }, ret_body)

/-- `BrpcService::entry`: the controller when `done` runs. -/
def entry (mapper : FunctionMapper (Wrapper HttpMethod)) : Run (Controller HttpMethod) := do
  let (name, vars) ← fetch_name mapper cntl.http_request.toHttpHeader ∅
  if name.isEmpty then return (cntl.set_response_status 404).return_response []
  else
    let (status, cntl, ret_body) ← cntl.invoke mapper name vars []
    -- `cntl->http_request()`, not `http_response()`
    let cntl := if status = -1 then cntl.set_request_status 500 else cntl
    return cntl.return_response ret_body

/-- The controller after what `entry` does with a request. -/
def answer (served : Served (Wrapper HttpMethod)) : Run (Controller HttpMethod) :=
  match served with
  | .not_found => .ok ((cntl.set_response_status 404).return_response [])
  | .no_func => .ok ((cntl.set_request_status 500).return_response [])
  | .ran func vars => do
    let (ret, ctx, ret_body) ← func (cntl.context vars) cntl.request_attachment []
    let http_response := { ctx.response_header with content_type := lit "application/json" }
    let cntl := { cntl with
      http_response := http_response, response_attachment := ctx.response_body }
    return (if ret = -1 then cntl.set_request_status 500 else cntl).return_response ret_body

/-- The whole of `entry` is the choice of the handler and its call. -/
theorem entry_eq (mapper : FunctionMapper (Wrapper HttpMethod)) :
    cntl.entry mapper = Brpc.entry mapper cntl.http_request.toHttpHeader >>= cntl.answer := by
  unfold entry Brpc.entry
  cases hfetch : fetch_name mapper cntl.http_request.toHttpHeader ∅ with
  | error fault => rfl
  | ok found =>
    obtain ⟨name, vars⟩ := found
    rw [run_ok_bind, run_ok_bind]
    by_cases hempty : name.isEmpty = true
    · simp only [hempty, if_true]
      rfl
    · simp only [hempty]
      unfold invoke Brpc.invoke
      cases hfunc : mapper._funcs name with
      | none => rfl
      | some func =>
        show _ = cntl.answer (.ran func vars)
        unfold answer
        cases hcall : func (cntl.context vars) cntl.request_attachment [] <;> simp

theorem status_return_response (raw : Str) :
    (cntl.return_response raw).http_response = cntl.http_response := rfl

theorem status_set_request_status (status_code : Int) :
    (cntl.set_request_status status_code).http_response = cntl.http_response := rfl

/-- The status of the response after a call: the one the wrapper left, whatever it
returned. -/
theorem status_of_ran {func : Wrapper HttpMethod} {vars : Std.ExtTreeMap Str Str}
    {cntl' : Controller HttpMethod} (h : cntl.answer (.ran func vars) = .ok cntl') :
    ∃ ret ctx ret_body, func (cntl.context vars) cntl.request_attachment [] =
        .ok (ret, ctx, ret_body) ∧
      cntl'.http_response.status_code = ctx.response_header.status_code := by
  obtain ⟨⟨ret, ctx, ret_body⟩, hcall, h⟩ := run_bind_eq_ok.mp h
  cases h
  refine ⟨ret, ctx, ret_body, hcall, ?_⟩
  rw [status_return_response]
  by_cases hret : ret = -1
  · rw [if_pos hret, status_set_request_status]
  · rw [if_neg hret]

end Controller

/-! ## The status of the response -/

/-- The status when `entry` returns: 404 where no api matches the path, and otherwise what
comes of the call of a handler, which is 500 for a -1 and else the status it left. -/
def StatusTold (regs : List (Reg HttpMethod (Wrapper HttpMethod)))
    (mapper : FunctionMapper (Wrapper HttpMethod)) (cntl : Controller HttpMethod) : Prop :=
  ∀ cntl', cntl.entry mapper = .ok cntl' →
    ((∀ r ∈ regs, ¬ r.Matches (slashed cntl.http_request.path)) →
      cntl'.http_response.status_code = 404) ∧
    ((∃ r ∈ regs, r.Matches (slashed cntl.http_request.path)) →
      ∃ func vars ret ctx ret_body,
        Brpc.entry mapper cntl.http_request.toHttpHeader = .ok (.ran func vars) ∧
        func (cntl.context vars) cntl.request_attachment [] = .ok (ret, ctx, ret_body) ∧
        cntl'.http_response.status_code = if ret = -1 then 500 else ctx.response_header.status_code)

/-- A request that an api matches leads to a registration with a name. -/
def MatchIsRouted (regs : List (Reg HttpMethod (Wrapper HttpMethod)))
    (header : HttpHeader HttpMethod) : Prop :=
  header.path ≠ [] → (∃ r ∈ regs, r.Matches (slashed header.path)) →
    ∃ c, Chosen regs header c ∧ c.name ≠ []

/-- The choice by name, with the variables that come with it. -/
theorem entry_of_chosen {regs : List (Reg HttpMethod (Wrapper HttpMethod))}
    {mapper : FunctionMapper (Wrapper HttpMethod)} (h : reg_all regs = .ok mapper)
    {header : HttpHeader HttpMethod} {c f : Reg HttpMethod (Wrapper HttpMethod)}
    {vars : Std.ExtTreeMap Str Str} (hf : Runs regs c.name f)
    (hfetch : fetch_name mapper header ∅ = .ok (c.name, vars)) :
    entry mapper header = .ok (.ran f.ctx_func vars) := by
  obtain ⟨-, hfuncs, -⟩ := reg_all_ok h
  obtain ⟨hname, hfind⟩ := hf
  have hempty : ¬ c.name.isEmpty = true := by simpa using hname
  rw [entry, hfetch, run_ok_bind]
  simp only [hempty]
  rw [invoke, hfuncs, hfind]
  rfl

/-- What runs is what stands first under the name of the chosen registration. -/
theorem chosen_of_entry {regs : List (Reg HttpMethod (Wrapper HttpMethod))}
    {mapper : FunctionMapper (Wrapper HttpMethod)} (h : reg_all regs = .ok mapper)
    {header : HttpHeader HttpMethod} {func : Wrapper HttpMethod} {vars : Std.ExtTreeMap Str Str}
    (hserved : entry mapper header = .ok (.ran func vars)) :
    ∃ c f, Chosen regs header c ∧ Runs regs c.name f ∧ f.ctx_func = func ∧
      fetch_name mapper header ∅ = .ok (c.name, vars) := by
  obtain ⟨c, f, hc, hf, hfunc⟩ := (entry_iff h header func).mp ⟨vars, hserved⟩
  obtain ⟨vars', hfetch⟩ := (fetch_name_iff h header hf.1).mpr ⟨c, hc, rfl⟩
  have hentry := entry_of_chosen h hf hfetch
  rw [hserved, Except.ok.injEq, Served.ran.injEq] at hentry
  obtain ⟨-, rfl⟩ := hentry
  exact ⟨c, f, hc, hf, hfunc, hfetch⟩

/-- A name that is found has a function. -/
theorem entry_ne_no_func {regs : List (Reg HttpMethod (Wrapper HttpMethod))}
    {mapper : FunctionMapper (Wrapper HttpMethod)} (h : reg_all regs = .ok mapper)
    (header : HttpHeader HttpMethod) : entry mapper header ≠ .ok .no_func := by
  intro hserved
  obtain ⟨⟨name, vars⟩, hfetch, hinvoke⟩ := run_bind_eq_ok.mp hserved
  by_cases hempty : name.isEmpty = true
  · simp only [hempty, if_true] at hinvoke
    cases hinvoke
  · simp only [hempty] at hinvoke
    have hfunc := (reg_all_routed h).fetch_name hfetch (by simpa using hempty)
    obtain ⟨func, hfunc⟩ := Option.isSome_iff_exists.mp hfunc
    rw [invoke, hfunc] at hinvoke
    cases hinvoke

/-- A request with a path is answered. -/
theorem entry_isOk (mapper : FunctionMapper (Wrapper HttpMethod)) {header : HttpHeader HttpMethod}
    (hpath : header.path ≠ []) : ∃ served, entry mapper header = .ok served := by
  have hfetch : ∃ found, fetch_name mapper header ∅ = .ok found := by
    rw [fetch_name, slash_ok hpath, run_ok_bind]
    cases mapper._api_hdrs (slashed header.path) with
    | some name => exact ⟨_, rfl⟩
    | none =>
      rcases UrlTrie.fetch_vars mapper._path_vars (slashed header.path) [] ∅ with ⟨b, name, vars⟩
      cases b <;> exact ⟨_, rfl⟩
  obtain ⟨⟨name, vars⟩, hfetch⟩ := hfetch
  rw [entry, hfetch, run_ok_bind]
  by_cases hempty : name.isEmpty = true
  · exact ⟨.not_found, by simp [hempty]⟩
  · exact ⟨invoke mapper name vars, by simp [hempty]⟩

/-- The function that a request is routed to does not return -1, unless it has set the
status 500 itself. -/
def TellsFailure (regs : List (Reg HttpMethod (Wrapper HttpMethod)))
    (mapper : FunctionMapper (Wrapper HttpMethod)) (cntl : Controller HttpMethod) : Prop :=
  ∀ c f vars, Chosen regs cntl.http_request.toHttpHeader c → Runs regs c.name f →
    fetch_name mapper cntl.http_request.toHttpHeader ∅ = .ok (c.name, vars) →
    ∀ ret ctx ret_body,
      f.ctx_func (cntl.context vars) cntl.request_attachment [] = .ok (ret, ctx, ret_body) →
      ret = -1 → ctx.response_header.status_code = 500

/-- The status is told where the request is routed and the function tells its failure. -/
theorem StatusTold.of_routed {regs : List (Reg HttpMethod (Wrapper HttpMethod))}
    {mapper : FunctionMapper (Wrapper HttpMethod)} (h : reg_all regs = .ok mapper)
    {cntl : Controller HttpMethod} (hrouted : MatchIsRouted regs cntl.http_request.toHttpHeader)
    (htells : TellsFailure regs mapper cntl) : StatusTold regs mapper cntl := by
  intro cntl' hentry
  rw [Controller.entry_eq] at hentry
  obtain ⟨served, hserved, hanswer⟩ := run_bind_eq_ok.mp hentry
  constructor
  · intro hnone
    cases served with
    | not_found =>
      cases hanswer
      rfl
    | no_func => exact absurd hserved (entry_ne_no_func h _)
    | ran func vars =>
      obtain ⟨c, -, hc, -⟩ := chosen_of_entry h hserved
      exact absurd hc.matches (hnone c hc.mem)
  · intro hmatched
    have hpath : cntl.http_request.path ≠ [] := by
      intro hnil
      rw [Brpc.entry, fetch_name, hnil] at hserved
      cases hserved
    obtain ⟨c, hc, hname⟩ := hrouted hpath hmatched
    obtain ⟨f, hf⟩ := exists_runs hc.mem hname
    obtain ⟨vars, hfetch⟩ := (fetch_name_iff h _ hname).mpr ⟨c, hc, rfl⟩
    have hran := entry_of_chosen h hf hfetch
    rw [hran] at hserved
    cases hserved
    obtain ⟨ret, ctx, ret_body, hcall, hstatus⟩ := cntl.status_of_ran hanswer
    refine ⟨f.ctx_func, vars, ret, ctx, ret_body, hran, hcall, ?_⟩
    rw [hstatus]
    by_cases hret : ret = -1
    · rw [if_pos hret]
      exact htells c f vars hc hf hfetch ret ctx ret_body hcall hret
    · rw [if_neg hret]

/-- **When the status tells what happened.** A request that an api matches must be routed,
and the function that is called must not return -1, unless it has set the status 500
itself. -/
theorem status_told_iff (regs : List (Reg HttpMethod (Wrapper HttpMethod)))
    (mapper : FunctionMapper (Wrapper HttpMethod)) (h : reg_all regs = .ok mapper)
    (cntl : Controller HttpMethod) :
    StatusTold regs mapper cntl ↔
      MatchIsRouted regs cntl.http_request.toHttpHeader ∧ TellsFailure regs mapper cntl := by
  constructor
  · intro htold
    constructor
    · intro hpath hmatched
      by_contra hnot
      -- nothing runs, so `entry` answers, and does it without a call
      have hserved : ∃ served, Brpc.entry mapper cntl.http_request.toHttpHeader = .ok served :=
        entry_isOk mapper hpath
      obtain ⟨served, hserved⟩ := hserved
      cases served with
      | no_func => exact absurd hserved (entry_ne_no_func h _)
      | ran func vars =>
        obtain ⟨c, f, hc, hf, -⟩ := chosen_of_entry h hserved
        exact hnot ⟨c, hc, hf.1⟩
      | not_found =>
        have hentry : cntl.entry mapper =
            .ok ((cntl.set_response_status 404).return_response []) := by
          rw [Controller.entry_eq, hserved]
          rfl
        obtain ⟨func, vars, ret, ctx, ret_body, hran, -⟩ := (htold _ hentry).2 hmatched
        rw [hserved] at hran
        cases hran
    · intro c f vars hc hf hfetch ret ctx ret_body hcall hret
      have hran := entry_of_chosen h hf hfetch
      have hentry : cntl.entry mapper = cntl.answer (.ran f.ctx_func vars) := by
        rw [Controller.entry_eq, hran, run_ok_bind]
      obtain ⟨cntl', hanswer⟩ : ∃ cntl', cntl.answer (.ran f.ctx_func vars) = .ok cntl' :=
        ⟨_, by rw [Controller.answer, hcall, run_ok_bind]; rfl⟩
      obtain ⟨ret₁, ctx₁, ret_body₁, hcall₁, hstatus⟩ := cntl.status_of_ran hanswer
      rw [hcall] at hcall₁
      cases hcall₁
      obtain ⟨func, vars₂, ret₂, ctx₂, ret_body₂, hran₂, hcall₂, hcode⟩ :=
        (htold cntl' (hentry.trans hanswer)).2 ⟨c, hc.mem, hc.matches⟩
      rw [hran] at hran₂
      cases hran₂
      rw [hcall] at hcall₂
      cases hcall₂
      rw [hstatus, if_pos hret] at hcode
      exact hcode
  · exact fun hcond => .of_routed h hcond.1 hcond.2

/-- With wrappers of the macro: the status tells what happened where a match is routed and no
body is rejected. -/
theorem status_told_of_accepted {regs : List (Reg HttpMethod (Wrapper HttpMethod))}
    {mapper : FunctionMapper (Wrapper HttpMethod)} (h : reg_all regs = .ok mapper)
    {cntl : Controller HttpMethod} (hrouted : MatchIsRouted regs cntl.http_request.toHttpHeader)
    (hmade : ∀ r ∈ regs, ∃ p v b base, r.ctx_func = http_def_api calls p v b base ∧
      ¬ Rejects calls b cntl.request_attachment) : StatusTold regs mapper cntl := by
  refine .of_routed h hrouted ?_
  rintro c f vars - ⟨-, hfind⟩ - ret ctx ret_body hcall rfl
  obtain ⟨p, v, b, base, hfunc, haccepts⟩ := hmade f (List.mem_of_find?_eq_some hfind)
  rw [hfunc] at hcall
  rcases http_def_api_ret calls hcall with ⟨hrejects, -⟩ | ⟨-, hzero⟩
  · exact absurd hrejects haccepts
  · cases hzero

/-- `GET /ping` and `POST /users`, where the second function sets the status 500 before it
returns -1. -/
theorem status_told_iff_ping :
    let ping : Wrapper Str := fun ctx _ ret_body => .ok (0, ctx, ret_body)
    let add : Wrapper Str := fun ctx _ ret_body =>
      .ok (-1, { ctx with response_header := ⟨500, []⟩ }, ret_body)
    let regs : List (Reg Str (Wrapper Str)) :=
      [⟨lit "/ping", lit "ping-GET-ping", lit "GET", ping⟩,
        ⟨lit "/users", lit "users-POST-add", lit "POST", add⟩]
    let cntl : Controller Str := ⟨⟨⟨lit "POST", lit "/users"⟩, [], 200⟩, [], ⟨200, []⟩, []⟩
    ∃ mapper, reg_all regs = .ok mapper ∧ StatusTold regs mapper cntl := by
  intro ping add regs cntl
  refine ⟨_, rfl, (status_told_iff regs _ rfl cntl).mpr ⟨?_, ?_⟩⟩
  · intro _ _
    exact ⟨⟨lit "/users", lit "users-POST-add", lit "POST", add⟩, ⟨by decide, .inl rfl⟩, by decide⟩
  · rintro c f vars hc ⟨-, hf⟩ - ret ctx ret_body hcall -
    have hfirst := hc.of_find (d := ⟨lit "/users", lit "users-POST-add", lit "POST", add⟩) rfl
    subst hfirst
    obtain rfl := Option.some.inj hf
    cases hcall
    rfl

/-- `POST /users` with the body `{`, which is no JSON: the response says 200. -/
theorem rejected_body_is_200 :
    ¬ ∀ (regs : List (Reg Str (Wrapper Str))) (mapper : FunctionMapper (Wrapper Str))
        (cntl : Controller Str), reg_all regs = .ok mapper → StatusTold regs mapper cntl := by
  intro hall
  let calls : Calls := ⟨fun _ => none, fun _ => [], fun _ => 0, fun _ => 0, fun _ => []⟩
  let user : Model := .object [] ⟨lit "User", []⟩ [] [] []
  let func : Wrapper Str :=
    http_def_api calls (.void []) (.void []) user fun ctx _ _ _ => .ok (.void [], ctx)
  let post : Reg Str (Wrapper Str) := ⟨lit "/users", lit "users-POST-add", lit "POST", func⟩
  let cntl : Controller Str :=
    ⟨⟨⟨lit "POST", lit "/users"⟩, [], 200⟩, lit "\x7b", ⟨200, []⟩, []⟩
  have hmatched : ∃ r ∈ [post], r.Matches (slashed cntl.http_request.path) :=
    ⟨post, List.mem_cons_self, post.matches_path⟩
  obtain ⟨func', vars, ret, ctx, ret_body, hran, hcall, hstatus⟩ :=
    (hall [post] _ cntl rfl _ rfl).2 hmatched
  cases hran
  cases hcall
  exact absurd hstatus (by decide)

end Rellaf.Brpc
