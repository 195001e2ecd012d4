import Lighttpd.Request.HeaderLines

/-!
# The target of a request that is accepted

Only the end of the request line writes `request.uri`, behind the check of its characters; what follows keeps it.
`parse_uri` is the result.
-/

namespace Lighttpd
namespace Request

variable (o : Options)

theorem setUri_uri (con : Con) (uri : Bytes) :
    Ends (fun _ => True) (fun r => uriIsValid o.headerStrict r.1.request.uri = true) (setUri o con uri) := by
  unfold setUri
  exact Ends.ite (fun _ => trivial) fun h => by simpa using h

theorem endOfRequestLine_uri (con : Con) (l : ReqLine) :
    Ends (fun _ => True) (fun r => uriIsValid o.headerStrict r.1.request.uri = true) (endOfRequestLine o con l) := by
  unfold endOfRequestLine
  refine Ends.ite (fun _ => trivial) fun _ => ?_
  cases getHttpMethodKey l.method with
  | none => trivial
  | some r =>
    dsimp only
    unfold setVersion
    cases protoVersion (cstr l.token) with
    | none => trivial
    | some version => exact Ends.ite (fun _ => setUri_uri o _ _) fun _ => Ends.ite (fun _ => setUri_uri o _ _) fun _ => trivial

theorem requestLineLoop_uri (con : Con) (l : ReqLine) (s : Bytes) :
    Ends (fun _ => True)
      (fun r => r.con.request.uri = con.request.uri ∨ uriIsValid o.headerStrict r.con.request.uri = true)
      (requestLineLoop o con l s) := by
  fun_induction requestLineLoop o con l s with
  | case1 => exact .inl rfl
  | case2 _ ih => exact ih
  | case3 l s' => exact (endOfRequestLine_uri o con l).map fun r hr => .inr hr
  | case4 _ _ _ _ ih => exact ih
  | case5 => trivial
  | case6 _ _ _ _ _ ih => exact ih
  | case7 _ _ _ _ _ ih => exact ih

theorem setField_uri (host : Bool) (v : Vars) (ds : DataString) :
    Ends (fun _ => True) (fun v' => v'.con.request.uri = v.con.request.uri) (setField o host v ds) := by
  unfold setField
  cases findName ds.key fieldNames with
  | none => exact rfl
  | some name =>
    cases name with
    | connection => exact rfl
    | contentLength =>
      dsimp only
      unfold setContentLength
      exact Ends.ite (fun _ => trivial) fun _ => Ends.ite (fun _ => trivial) fun _ => Ends.ite (fun _ => rfl) fun _ => trivial
    | contentType =>
      dsimp only
      unfold setContentType
      cases v.con.request.httpContentType with
      | none => exact rfl
      | some p => trivial
    | expect => exact Ends.ite (fun _ => trivial) fun _ => rfl
    | host =>
      dsimp only
      unfold setHost
      refine Ends.ite (fun _ => rfl) fun _ => ?_
      cases v.con.request.httpHost with
      | none => exact rfl
      | some p => trivial
    | ifModifiedSince =>
      dsimp only
      unfold setIfModifiedSince
      cases v.con.request.httpIfModifiedSince with
      | none => exact rfl
      | some p => exact Ends.ite (fun _ => rfl) fun _ => trivial
    | ifNoneMatch =>
      dsimp only
      unfold setIfNoneMatch
      cases v.con.request.httpIfNoneMatch <;> exact rfl
    | range =>
      dsimp only
      unfold setRange
      cases v.con.request.httpRange with
      | none => exact Ends.ite (fun _ => rfl) fun _ => rfl
      | some p => trivial

theorem endOfLine_uri (host : Bool) (v : Vars) (m : Mode) :
    Ends (fun _ => True) (fun v' => v'.con.request.uri = v.con.request.uri) (endOfLine o host v m) := by
  cases m with
  | key token => exact rfl
  | colon key => exact rfl
  | value key value => exact Ends.ite (fun _ => rfl) fun _ => setField_uri o host _ _
  | folding value =>
    show Ends _ _ (endOfFoldedLine v value)
    unfold endOfFoldedLine
    split
    · trivial
    · trivial
    · exact rfl

theorem headerLoop_uri (host : Bool) (m : Mode) (v : Vars) (s : Bytes) :
    Ends (fun _ => True) (fun r => r.1.con.request.uri = v.con.request.uri) (headerLoop o host m v s) := by
  fun_induction headerLoop o host m v s with
  | case8 m v d s' hd hcr v' hend ih =>
    exact ih.mono (fun _ _ => trivial) fun r hr => hr.trans ((endOfLine_uri o host v m).of_ok hend)
  | case10 m v c s hc m' hchar ih => exact ih
  | _ => trivial

theorem postProcess_uri (v : Vars) :
    Ends (fun _ => True) (fun r => r.2.request.uri = v.con.request.uri) (postProcess o v) := by
  refine (postProcess_request o v).mono (fun _ h => h) fun r hr => ?_
  rw [hr]

/-- **The target of a request that is accepted** is not empty, and has been checked. -/
theorem parse_uri (con : Con) (hcon : con.request.uri = []) :
    Ends (fun _ => True) (fun r => r.2.request.uri ≠ [] ∧ uriIsValid o.headerStrict r.2.request.uri = true)
      (parse o con) := by
  unfold parse
  refine (requestLineLoop_uri o con _ _).bind fun l hl => ?_
  unfold afterLine
  refine Ends.ite (fun _ => trivial) fun hne => ?_
  have hvalid : uriIsValid o.headerStrict l.con.request.uri = true := by
    rcases hl with hl | hl
    · exact absurd (by rw [hl, hcon]; rfl) hne
    · exact hl
  dsimp only
  have hinsert : (insertReqlineHost l.con l.reqlineHost).request.uri = l.con.request.uri := by
    cases l.reqlineHost <;> rfl
  refine (headerLoop_uri o _ _ _ _).bind fun r hr => ?_
  refine (postProcess_uri o _).mono (fun _ _ => trivial) fun r' hr' => ?_
  rw [hr', show _ = _ from hr, hinsert]
  exact ⟨by simpa using hne, hvalid⟩

end Request
end Lighttpd
