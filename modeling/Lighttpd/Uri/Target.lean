import Lighttpd.Request.Target
import Lighttpd.Uri.Path

/-!
# From the target of a request to a path (`response.c`)

`http_response_prepare` splits the target, decodes and simplifies its path, and puts it behind the document root. This is
what happens when no plugin takes part.

- `splitTarget_spec`, `physicalOf_spec`: the path of the URI and the path of the file;
- `uri_path_confined`: the two together, for a request that the parser accepts.
-/

namespace Lighttpd.Uri

open Request PathName

/-! ## `http_response_prepare` -/

structure ConUri where
  query : Bytes
  pathRaw : Bytes
  path : Bytes

structure Physical where
  docRoot : Bytes
  relPath : Bytes
  basedir : Bytes
  path : Bytes

/-- The options of the connection. -/
structure Conf where
  documentRoot : Bytes
  forceLowercaseFilenames : Bool

def cutFragment (uri : Bytes) : Bytes :=
  match (cstr uri).idxOf? (chr '#') with
  | some n => uri.take n
  | none => uri

def splitQuery (uri : Bytes) : Bytes × Bytes :=
  match (cstr uri).idxOf? (chr '?') with
  | some n => (uri.take n, (cstr uri).drop (n + 1))
  | none => (uri, [])

def IsStar (method : Option Method) (pathRaw : Bytes) : Prop := method = some .options ∧ cstr pathRaw = ascii "*"

instance (method : Option Method) (pathRaw : Bytes) : Decidable (IsStar method pathRaw) :=
  inferInstanceAs (Decidable (_ ∧ _))

def splitTarget (method : Option Method) (uri : Bytes) : ConUri :=
  let (pathRaw, query) := splitQuery (cutFragment uri)
  ⟨query, pathRaw, if IsStar method pathRaw then pathRaw else pathSimplify (urldecodePath pathRaw)⟩

def appendSlash (b : Bytes) : Bytes := if 0 < b.length ∧ b.getLast? ≠ some (chr '/') then b ++ [chr '/'] else b

def physicalOf (conf : Conf) (path : Bytes) : Physical :=
  let relPath := if conf.forceLowercaseFilenames then path.map toLower else path
  let docRoot := conf.documentRoot
  let behind := if relPath.head? = some (chr '/') then relPath.tail else relPath
  ⟨docRoot, relPath, docRoot, appendSlash docRoot ++ behind⟩

/-- `http_response_prepare`. A request `OPTIONS *` is answered before there is a file. -/
def prepare (conf : Conf) (method : Option Method) (uri : Bytes) : ConUri × Option Physical :=
  let u := splitTarget method uri
  if method = some .options ∧ (cstr u.path).head? = some (chr '*') ∧ u.pathRaw.getD 1 0 = 0 then (u, none)
  else (u, some (physicalOf conf u.path))

/-! ## The path of the URI -/

theorem cutFragment_subset (uri : Bytes) : cutFragment uri ⊆ uri := by
  unfold cutFragment
  split
  · exact List.take_subset _ _
  · exact List.Subset.refl _

theorem splitQuery_subset (uri : Bytes) : (splitQuery uri).1 ⊆ uri := by
  unfold splitQuery
  split
  · exact List.take_subset _ _
  · exact List.Subset.refl _

theorem splitTarget_subset (method : Option Method) (uri : Bytes) : (splitTarget method uri).pathRaw ⊆ uri :=
  List.Subset.trans (splitQuery_subset _) (cutFragment_subset uri)

theorem mem_rootSegments {s t : Bytes} (h : t ∈ rootSegments s) : chr '/' ∉ t ∧ t ⊆ s := by
  obtain ⟨hslash, hsub⟩ := mem_splitOn h
  refine ⟨hslash, List.Subset.trans hsub ?_⟩
  split
  · exact List.tail_subset _
  · exact List.Subset.refl _

/-- **A path that is decoded and simplified.** -/
theorem clean_path {s : Bytes} (hne : s ≠ []) (hzero : 0 ∉ s) :
    Clean (chr '/') (chr '.') (pathSimplify (urldecodePath s)) ∧
    ∀ c ∈ pathSimplify (urldecodePath s), c ≠ 0 ∧ (c ∈ s ∨ ¬ IsControl c) := by
  have hdecoded : urldecodePath s ≠ [] := fun h => hne ((urldecode_eq_nil hzero).mp h)
  rw [pathSimplify_eq hdecoded]
  have hsegments : ∀ t ∈ rootSegments (cstr ((urldecodePath s).dropWhile (· = chr ' '))),
      chr '/' ∉ t ∧ t ⊆ urldecodePath s := by
    intro t ht
    obtain ⟨hslash, hsub⟩ := mem_rootSegments ht
    have hcstr : cstr ((urldecodePath s).dropWhile (· = chr ' ')) ⊆ (urldecodePath s).dropWhile (· = chr ' ') :=
      (List.takeWhile_prefix _).subset
    exact ⟨hslash, List.Subset.trans hsub (List.Subset.trans hcstr (List.dropWhile_suffix _).subset)⟩
  refine ⟨clean_normal (by simp) fun t ht => (hsegments t ht).1, fun c hc => ?_⟩
  rcases mem_normal hc with rfl | ⟨n, hn, -⟩ | ⟨t, ht, hct⟩
  · exact ⟨by decide, .inr (by decide)⟩
  · cases hn
  · rcases mem_urldecode ((hsegments t ht).2 hct) with ⟨hmem, hc⟩ | hcontrol
    · exact ⟨hc, .inl hmem⟩
    · exact ⟨fun h => hcontrol (h ▸ by decide), .inr hcontrol⟩

variable {uri : Bytes}

/-- **The two kinds of targets.** -/
theorem splitTarget_spec (method : Option Method) (h : 0 ∉ uri) : (IsStar method (splitTarget method uri).pathRaw →
      (splitTarget method uri).pathRaw = ascii "*" ∧ (splitTarget method uri).path = ascii "*") ∧
    (¬ IsStar method (splitTarget method uri).pathRaw →
      (splitTarget method uri).pathRaw = [] ∧ (splitTarget method uri).path = [] ∨
      (splitTarget method uri).pathRaw ≠ [] ∧ Clean (chr '/') (chr '.') (splitTarget method uri).path ∧
        ∀ c ∈ (splitTarget method uri).path, c ≠ 0 ∧ (c ∈ uri ∨ ¬ IsControl c)) := by
  have hsub := splitTarget_subset method uri
  have hzero : 0 ∉ (splitTarget method uri).pathRaw := fun h0 => h (hsub h0)
  have hpath : (splitTarget method uri).path = if IsStar method (splitTarget method uri).pathRaw then
      (splitTarget method uri).pathRaw else pathSimplify (urldecodePath (splitTarget method uri).pathRaw) := rfl
  generalize (splitTarget method uri).pathRaw = pathRaw at *
  generalize (splitTarget method uri).path = path at *
  constructor
  · intro hstar
    have hraw : pathRaw = ascii "*" := by rw [← cstr_eq_self hzero]; exact hstar.2
    rw [if_pos hstar] at hpath
    exact ⟨hraw, hpath.trans hraw⟩
  · intro hstar
    rw [if_neg hstar] at hpath
    by_cases hne : pathRaw = []
    · subst hne
      exact .inl ⟨rfl, hpath⟩
    · obtain ⟨hclean, hchars⟩ := clean_path hne hzero
      rw [← hpath] at hclean hchars
      exact .inr ⟨hne, hclean, fun c hc => ⟨(hchars c hc).1, (hchars c hc).2.imp_left fun h => hsub h⟩⟩

theorem uriIsValid_spec {headerStrict : Bool} (h : uriIsValid headerStrict uri = true) :
    0 ∉ uri ∧ (headerStrict = true → ∀ c ∈ uri, ¬ IsControl c) := by
  unfold uriIsValid at h
  cases headerStrict with
  | false => exact ⟨by simpa using h, fun h => by cases h⟩
  | true =>
    rw [if_pos rfl, List.all_eq_true] at h
    have hcontrol : ∀ c ∈ uri, ¬ IsControl c := by
      intro c hc hcontrol
      have hc := h c hc
      unfold requestUriIsValidChar at hc
      rcases hcontrol with hlow | rfl
      · have hle : c ≤ 32 := UInt8.le_of_lt hlow
        simp [hle] at hc
      · exact absurd hc (by decide)
    exact ⟨fun h => hcontrol 0 h (by decide), fun _ => hcontrol⟩

/-! ## The path of the file -/

/-- **The file is behind the document root**, and not above. -/
theorem physicalOf_spec (conf : Conf) {path : Bytes} (h : path = [] ∨ Clean (chr '/') (chr '.') path) :
    ∃ rel, (physicalOf conf path).path = appendSlash conf.documentRoot ++ rel ∧
      (path = [] ∧ rel = [] ∨ Clean (chr '/') (chr '.') (chr '/' :: rel)) ∧
      (depth (chr '.') 0 (rel.splitOn (chr '/'))).isSome := by
  rcases h with rfl | h
  · refine ⟨[], ?_, .inl ⟨rfl, rfl⟩, rfl⟩
    unfold physicalOf
    cases conf.forceLowercaseFilenames <;> rfl
  · have hrel : Clean (chr '/') (chr '.') (if conf.forceLowercaseFilenames then path.map toLower else path) := by
      split
      · exact h.map (fun _ => toLower_eq_iff (by decide)) fun _ => toLower_eq_iff (by decide)
      · exact h
    unfold physicalOf
    dsimp only
    generalize (if conf.forceLowercaseFilenames then path.map toLower else path) = relPath at hrel ⊢
    rw [if_pos hrel.rooted]
    obtain ⟨rel, rfl⟩ : ∃ rel, relPath = chr '/' :: rel := List.head?_eq_some_iff.mp hrel.rooted
    exact ⟨rel, rfl, .inr hrel, hrel.stays_below⟩

theorem relPath_spec (conf : Conf) {path : Bytes} (h : path = [] ∨ Clean (chr '/') (chr '.') path) (hnul : 0 ∉ path) :
    (∀ s ∈ (physicalOf conf path).relPath.splitOn (chr '/'), ¬ IsDots (chr '.') s) ∧
      0 ∉ (physicalOf conf path).relPath := by
  have hdots : ∀ s ∈ path.splitOn (chr '/'), ¬ IsDots (chr '.') s := by
    rcases h with rfl | h
    · decide
    · exact h.no_dots
  unfold physicalOf
  dsimp only
  split
  · constructor
    · rcases h with rfl | h
      · decide
      · exact (h.map (fun _ => toLower_eq_iff (by decide)) fun _ => toLower_eq_iff (by decide)).no_dots
    · intro hc
      obtain ⟨d, hd, hzero⟩ := List.mem_map.mp hc
      exact hnul ((toLower_eq_iff (by decide)).mp hzero ▸ hd)
  · exact ⟨hdots, hnul⟩

theorem directory_appendSlash (cwd : List Bytes) {p : Bytes} (h : p ≠ []) (q : Bytes) :
    directory (chr '/') (chr '.') cwd (appendSlash p ++ q) =
      resolve (chr '.') (directory (chr '/') (chr '.') cwd p) (q.splitOn (chr '/')) := by
  unfold appendSlash
  by_cases hslash : p.getLast? = some (chr '/')
  · obtain ⟨u, rfl⟩ := List.getLast?_eq_some_iff.mp hslash
    rw [if_neg (by simp)]
    exact directory_concat_append cwd u q
  · rw [if_pos ⟨List.length_pos_iff.mpr h, hslash⟩, List.append_assoc]
    exact directory_append_sep h q

/-! ## A request that is accepted -/

theorem prepare_star (conf : Conf) {method : Option Method}
    (h : IsStar method (splitTarget method uri).pathRaw) (hraw : (splitTarget method uri).pathRaw = ascii "*")
    (hpath : (splitTarget method uri).path = ascii "*") : prepare conf method uri = (splitTarget method uri, none) := by
  unfold prepare
  exact if_pos ⟨h.1, by rw [hpath]; rfl, by rw [hraw]; rfl⟩

theorem prepare_file (conf : Conf) {method : Option Method}
    (h : (splitTarget method uri).path = [] ∨ Clean (chr '/') (chr '.') (splitTarget method uri).path) :
    prepare conf method uri = (splitTarget method uri, some (physicalOf conf (splitTarget method uri).path)) := by
  unfold prepare
  refine if_neg fun hstar => ?_
  obtain ⟨-, hhead, -⟩ := hstar
  rcases h with h | h
  · rw [h] at hhead
    cases hhead
  · obtain ⟨p, hp⟩ : ∃ p, (splitTarget method uri).path = chr '/' :: p := List.head?_eq_some_iff.mp h.rooted
    rw [hp] at hhead
    cases hhead

/-- **What holds of the path of the URI and of the path of the file.** -/
structure Confined (headerStrict : Bool) (conf : Conf) (method : Option Method) (u : ConUri)
    (physical : Option Physical) : Prop where
  star : IsStar method u.pathRaw → u.path = ascii "*" ∧ physical.isNone
  empty : ¬ IsStar method u.pathRaw → u.pathRaw = [] → u.path = []
  clean : ¬ IsStar method u.pathRaw → u.pathRaw ≠ [] → Clean (chr '/') (chr '.') u.path ∧
    ∀ c ∈ u.path, c ≠ 0 ∧ (headerStrict = true → ¬ IsControl c)
  physical : ¬ IsStar method u.pathRaw → ∃ p rel, physical = some p ∧ p.path = appendSlash conf.documentRoot ++ rel ∧
    (u.path = [] ∧ rel = [] ∨ Clean (chr '/') (chr '.') (chr '/' :: rel)) ∧
    (depth (chr '.') 0 (rel.splitOn (chr '/'))).isSome

theorem confined_prepare (headerStrict : Bool) (conf : Conf) (method : Option Method)
    (h : uriIsValid headerStrict uri = true) :
    Confined headerStrict conf method (prepare conf method uri).1 (prepare conf method uri).2 := by
  obtain ⟨hzero, hcontrol⟩ := uriIsValid_spec h
  obtain ⟨hstar, hpath⟩ := splitTarget_spec method hzero
  by_cases hs : IsStar method (splitTarget method uri).pathRaw
  · obtain ⟨hraw, hp⟩ := hstar hs
    rw [prepare_star conf hs hraw hp]
    exact ⟨fun _ => ⟨hp, rfl⟩, fun h => absurd hs h, fun h => absurd hs h, fun h => absurd hs h⟩
  · have hempty : (splitTarget method uri).path = [] ∨ Clean (chr '/') (chr '.') (splitTarget method uri).path :=
      (hpath hs).imp (fun h => h.2) fun h => h.2.1
    rw [prepare_file conf hempty]
    refine ⟨fun h => absurd h hs, fun _ hraw => ?_, fun _ hraw => ?_, fun _ => ?_⟩
    · rcases hpath hs with ⟨-, hp⟩ | ⟨hne, -⟩
      · exact hp
      · exact absurd hraw hne
    · rcases hpath hs with ⟨hnil, -⟩ | ⟨-, hclean, hchars⟩
      · exact absurd hnil hraw
      · refine ⟨hclean, fun c hc => ⟨(hchars c hc).1, fun hstrict => ?_⟩⟩
        rcases (hchars c hc).2 with hmem | hc
        · exact hcontrol hstrict c hmem
        · exact hc
    · obtain ⟨rel, hrel⟩ := physicalOf_spec conf hempty
      exact ⟨_, rel, rfl, hrel⟩

/-- **The path of the URI of an accepted request, and that of the file.** Besides `OPTIONS *`, and a target that is empty
before its query or its fragment, the path starts with a slash, has no segments that are empty or dots, no NUL, and no
control character if the header is parsed strictly. The path of the file is the document root, and behind it such a
path. -/
theorem uri_path_confined (o : Options) (con : Con) (requestCount : Nat) (block : Bytes) (conf : Conf) {r : Request}
    (hr : (httpRequestParse o (nextRequest con requestCount block)).2.request = r)
    (h : (httpRequestParse o (nextRequest con requestCount block)).2.httpStatus = 0) :
    Confined o.headerStrict conf r.httpMethod (prepare conf r.httpMethod r.uri).1 (prepare conf r.httpMethod r.uri).2 := by
  have huri := parse_uri o (nextRequest con requestCount block) rfl
  unfold httpRequestParse at h hr
  cases hx : parse o (nextRequest con requestCount block) with
  | error con' =>
    rw [hx] at h
    exact absurd h (parse_error_status o con requestCount block hx)
  | ok r' =>
    rw [hx] at hr
    obtain ⟨-, hvalid⟩ := huri.of_ok hx
    have hr : r'.2.request = r := hr
    rw [hr] at hvalid
    exact confined_prepare o.headerStrict conf r.httpMethod hvalid

/-- A request for a file, with dots that are written in three ways. -/
def dotsBlock : Bytes := ascii "GET /a/%2e%2E/..%2fb/./c%5?q#f HTTP/1.0\r\n\r\n"

theorem uri_path_confined_dots : ∃ r : Request,
    (httpRequestParse sampleOptions (nextRequest (sampleCon "") 1 dotsBlock)).2.request = r ∧
    (httpRequestParse sampleOptions (nextRequest (sampleCon "") 1 dotsBlock)).2.httpStatus = 0 ∧
    Confined true ⟨ascii "/srv", true⟩ r.httpMethod (prepare ⟨ascii "/srv", true⟩ r.httpMethod r.uri).1
      (prepare ⟨ascii "/srv", true⟩ r.httpMethod r.uri).2 := by
  have h : (httpRequestParse sampleOptions (nextRequest (sampleCon "") 1 dotsBlock)).2.httpStatus = 0 := by decide +kernel
  exact ⟨_, rfl, h, uri_path_confined sampleOptions (sampleCon "") 1 dotsBlock ⟨ascii "/srv", true⟩ rfl h⟩

def pathOf (o : Options) (block : Bytes) : Bytes :=
  let r := (httpRequestParse o (nextRequest (sampleCon "") 1 block)).2.request
  (prepare ⟨ascii "/srv", false⟩ r.httpMethod r.uri).1.path

/-- **Targets whose path is not rooted, or has a control character**: `OPTIONS *`, a target that is only a query, and a
control character when the header is not parsed strictly. All of them are accepted. -/
theorem uri_path_not_rooted :
    ((httpRequestParse sampleOptions (nextRequest (sampleCon "") 1 (ascii "OPTIONS * HTTP/1.0\r\n\r\n"))).2.httpStatus = 0 ∧
      (pathOf sampleOptions (ascii "OPTIONS * HTTP/1.0\r\n\r\n")).head? ≠ some (chr '/')) ∧
    ((httpRequestParse sampleOptions (nextRequest (sampleCon "") 1 (ascii "GET ?q HTTP/1.0\r\n\r\n"))).2.httpStatus = 0 ∧
      (pathOf sampleOptions (ascii "GET ?q HTTP/1.0\r\n\r\n")).head? ≠ some (chr '/')) ∧
    ((httpRequestParse { sampleOptions with headerStrict := false }
        (nextRequest (sampleCon "") 1 (ascii "GET /\x01 HTTP/1.0\r\n\r\n"))).2.httpStatus = 0 ∧
      ∃ c ∈ pathOf { sampleOptions with headerStrict := false } (ascii "GET /\x01 HTTP/1.0\r\n\r\n"), IsControl c) := by
  decide +kernel

end Lighttpd.Uri
