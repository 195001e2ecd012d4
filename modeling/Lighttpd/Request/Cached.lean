import Lighttpd.Request.RequestLine

/-!
# The cached header fields of a request (`request.c`, `array.c`, `buffer.c`)

`con->request.http_host` points to a buffer, the value of a `data_string`; `http_content_type`,
`http_if_modified_since`, `http_if_none_match` and `http_range` point to bytes of one. These bytes stand in a block of memory that is freed when
the buffer needs a larger one. `Mem` follows the blocks of the values while the parser reads the header.

* `Mem.line` is what a line of the header does to the blocks, `Mem.lines` what the header does;
* `Cached` is what the lines so far leave of the pointers (`Cached.headerLine`, `Cached.lines`);
* `cached_agree`: the pointers agree with the lookups; a `Range` that is no range of bytes is not pointed to.
-/

namespace Lighttpd

namespace Request

/-! ## The blocks of the values -/

/-- The allocation of the value of a `data_string`: the size of its block, and the number of the block. -/
structure Cell where
  size : Nat
  block : Nat
deriving DecidableEq

/-- The sizes of the values of the unused elements of `con->request.headers`, the allocations of the values of the
header fields, the number of the next block, and the blocks that the pointers point into. An unused element counts as
a new block when it is taken. -/
structure Mem where
  unused : List Nat
  cells : List Cell
  next : Nat
  contentType : Option Nat
  ifModifiedSince : Option Nat
  ifNoneMatch : Option Nat
  range : Option Nat
deriving DecidableEq

/-- The size after `buffer_alloc` or `buffer_realloc`. -/
def growTo (size needed : Nat) : Nat := if needed ≤ size then size else Buffer.alignSize needed

namespace Mem

/-- A request begins, with the unused elements that earlier ones have left. -/
def start (unused : List Nat) : Mem := ⟨unused, [], 0, none, none, none, none⟩

/-- `array_get_unused_element` or `data_string_init`, and `buffer_copy_string_len` of a value with this length. -/
def newValue (m : Mem) (len : Nat) : Cell × Mem :=
  (⟨growTo (m.unused.headD 0) (len + 1), m.next⟩, { m with unused := m.unused.tail, next := m.next + 1 })

/-- `buffer_append_string_len` to the value of header field `n`, which uses so many bytes with its NUL. -/
def append (m : Mem) (n used len : Nat) : Mem :=
  match m.cells[n]? with
  | none => m
  | some c =>
    if used + len ≤ c.size then m
    else { m with cells := m.cells.set n ⟨Buffer.alignSize (used + len), m.next⟩, next := m.next + 1 }

/-- `array_insert_unique`: a new element, or `data_string_insert_dup`. -/
def insert (m : Mem) (hs : Headers) (ds : DataString) (c : Cell) : Mem :=
  match hs.getIndex ds.key with
  | none => { m with cells := m.cells ++ [c] }
  | some n =>
    let used := (hs.deref (.slot n)).length + 1
    (m.append n used 2).append n (used + 2) ds.value.length

def setField (m : Mem) (reqlineHost : Bool) (v : Vars) (ds : DataString) : Mem :=
  let hs := v.con.request.headers
  let (c, m) := m.newValue ds.value.length
  match findName ds.key fieldNames with
  | some .contentType => { m with contentType := some c.block }.insert hs ds c
  | some .host => if reqlineHost then m else m.insert hs ds c
  | some .ifModifiedSince =>
    match v.con.request.httpIfModifiedSince with
    | none => { m with ifModifiedSince := some c.block }.insert hs ds c
    | some _ => m
  | some .ifNoneMatch =>
    match v.con.request.httpIfNoneMatch with
    | none => { m with ifNoneMatch := some c.block }.insert hs ds c
    | some _ => m
  | some .range =>
    if isByteRange ds.value then { m with range := some c.block }.insert hs ds c else m.insert hs ds c
  | _ => m.insert hs ds c

def fold (m : Mem) (v : Vars) (value : Bytes) : Mem :=
  match v.key.bind v.con.request.headers.getIndex with
  | none => m
  | some n => m.append n ((v.con.request.headers.deref (.slot n)).length + 1) value.length

def line (m : Mem) (reqlineHost : Bool) (v : Vars) : Mode → Mem
  | .value key value =>
    let value := value.rdropWhile isWs
    if value.isEmpty then m else m.setField reqlineHost v ⟨key, value⟩
  | .folding value => m.fold v value
  | _ => m

def lines (o : Options) (reqlineHost : Bool) (v : Vars) (m : Mem) : List Bytes → Mem
  | [] => m
  | line :: ls =>
    match readLine o v.con (.key []) line with
    | .error _ => m
    | .ok mode =>
      match endOfLine o reqlineHost v mode with
      | .error _ => m.line reqlineHost v mode
      | .ok v' => lines o reqlineHost v' (m.line reqlineHost v mode) ls

/-- The host of the request line becomes a header field. -/
def reqline (m : Mem) (reqlineHost : Option Bytes) : Mem :=
  match reqlineHost with
  | none => m
  | some host =>
    let (c, m) := m.newValue host.length
    m.insert [] ⟨ascii "Host", host⟩ c

/-- The blocks behind the header of a block. -/
def parse (o : Options) (con : Con) (unused : List Nat) : Mem :=
  match requestLineLoop o con ⟨0, [], [], [], []⟩ (parseRequest con) with
  | .error _ => start unused
  | .ok l =>
    lines o l.reqlineHost.isSome (varsOf l.con l.reqlineHost) ((start unused).reqline l.reqlineHost)
      (headerLines (parseRequest con))

end Mem

/-! ## What a pointer points to -/

/-- A pointer to the bytes of a value: it is `NULL` and there is no such field, or it points into the block of the
value that the lookup finds. -/
def PointsTo (hs : Headers) (cells : List Cell) (name : String) (p : Option Nat) : Prop :=
  match p with
  | none => hs.getIndex (ascii name) = none
  | some b => ∃ n c, hs.getIndex (ascii name) = some n ∧ cells[n]? = some c ∧ c.block = b

/-- `http_host`: it is `NULL` and there is no such field, or it is the value that the lookup finds. -/
def HostPointsTo (hs : Headers) (p : Option ValuePtr) : Prop :=
  match p with
  | none => hs.getIndex (ascii "Host") = none
  | some p => ∃ n, hs.getIndex (ascii "Host") = some n ∧ p = .slot n

/-- The pointers to the bytes of a value. -/
inductive Pointer where
  | contentType
  | ifModifiedSince
  | ifNoneMatch
  | range
deriving DecidableEq

namespace Pointer

def name : Pointer → String
  | contentType => "Content-Type"
  | ifModifiedSince => "If-Modified-Since"
  | ifNoneMatch => "If-None-Match"
  | range => "Range"

def block (m : Mem) : Pointer → Option Nat
  | contentType => m.contentType
  | ifModifiedSince => m.ifModifiedSince
  | ifNoneMatch => m.ifNoneMatch
  | range => m.range

def cached (r : Request) : Pointer → Option ValuePtr
  | contentType => r.httpContentType
  | ifModifiedSince => r.httpIfModifiedSince
  | ifNoneMatch => r.httpIfNoneMatch
  | range => r.httpRange

end Pointer

/-- The names of the fields with a pointer to their bytes. -/
def isCached (key : Bytes) : Bool :=
  [Pointer.contentType, .ifModifiedSince, .ifNoneMatch, .range].any fun q => caselessCompare (ascii q.name) key == 0

def Field.isRange (f : Field) : Bool := caselessCompare (ascii "Range") f.name == 0 && !f.value.isEmpty

def Field.OtherRange (f : Field) : Prop := f.isRange = true ∧ isByteRange f.value = false

variable {o : Options} {con : Con} {host : Bool} {v v' : Vars} {m : Mem} {mode : Mode} {hs hs' : Headers}
  {cells : List Cell} {name : String} {p : Option Nat} {key value : Bytes} {ds : DataString} {c : Cell} {n k : Nat}

/-! ## Pointers to the bytes of a value -/

theorem PointsTo.congr (h : PointsTo hs cells name p) (hkeys : hs'.map DataString.key = hs.map DataString.key) :
    PointsTo hs' cells name p := by
  unfold PointsTo at h ⊢
  rwa [Headers.getIndex_congr hkeys]

theorem PointsTo.push (h : PointsTo hs cells name p) (hne : caselessCompare (ascii name) ds.key ≠ 0) (c : Cell) :
    PointsTo (hs ++ [ds]) (cells ++ [c]) name p := by
  unfold PointsTo at h ⊢
  rw [Headers.getIndex_push, if_neg hne, Option.or_none]
  cases p with
  | none => exact h
  | some b =>
    obtain ⟨n, c', hn, hc, rfl⟩ := h
    refine ⟨n, c', hn, ?_, rfl⟩
    rw [List.getElem?_append_left (List.getElem?_eq_some_iff.mp hc).1, hc]

theorem PointsTo.new (h : hs.getIndex (ascii name) = none) (h0 : caselessCompare (ascii name) ds.key = 0)
    (hlen : cells.length = hs.length) (c : Cell) : PointsTo (hs ++ [ds]) (cells ++ [c]) name (some c.block) := by
  refine ⟨hs.length, c, ?_, by simp [← hlen], rfl⟩
  simp [Headers.getIndex_push, h, h0]

theorem PointsTo.set (h : PointsTo hs cells name p) (hkey : hs.getIndex key = some n)
    (hne : caselessCompare (ascii name) key ≠ 0) (c : Cell) : PointsTo hs (cells.set n c) name p := by
  unfold PointsTo at h ⊢
  cases p with
  | none => exact h
  | some b =>
    obtain ⟨k, c', hk, hc, rfl⟩ := h
    have hkn : n ≠ k := by
      rintro rfl
      exact hne (Headers.getIndex_inj hk hkey)
    exact ⟨k, c', hk, by rw [List.getElem?_set_ne hkn, hc], rfl⟩

/-! ## What a line does to the blocks -/

namespace Mem

theorem append_eq (m : Mem) (n used len : Nat) :
    ∃ cells next, m.append n used len = { m with cells := cells, next := next } ∧
      (cells = m.cells ∨ ∃ c, cells = m.cells.set n c) := by
  unfold append
  split
  · exact ⟨m.cells, m.next, rfl, .inl rfl⟩
  · split
    · exact ⟨m.cells, m.next, rfl, .inl rfl⟩
    · exact ⟨_, _, rfl, .inr ⟨_, rfl⟩⟩

theorem append_fits {used len : Nat} (h : ∀ c, m.cells[n]? = some c → used + len ≤ c.size) :
    m.append n used len = m := by
  unfold append
  split
  · rfl
  · rename_i c hc
    rw [if_pos (h c hc)]

theorem insert_none (h : hs.getIndex ds.key = none) (m : Mem) (c : Cell) :
    m.insert hs ds c = { m with cells := m.cells ++ [c] } := by
  simp [insert, h]

theorem insert_some (h : hs.getIndex ds.key = some n) (m : Mem) (c : Cell) :
    ∃ cells next, m.insert hs ds c = { m with cells := cells, next := next } ∧
      (cells = m.cells ∨ ∃ c, cells = m.cells.set n c) := by
  simp only [insert, h]
  obtain ⟨cells, next, heq, hcells⟩ := m.append_eq n ((hs.deref (.slot n)).length + 1) 2
  rw [heq]
  obtain ⟨cells', next', heq', hcells'⟩ :=
    append_eq { m with cells := cells, next := next } n ((hs.deref (.slot n)).length + 1 + 2) ds.value.length
  rw [heq']
  refine ⟨cells', next', rfl, ?_⟩
  dsimp only at hcells'
  rcases hcells with rfl | ⟨c₁, rfl⟩
  · exact hcells'
  · rcases hcells' with rfl | ⟨c₂, rfl⟩
    · exact .inr ⟨c₁, rfl⟩
    · exact .inr ⟨c₂, by rw [List.set_set]⟩

end Mem

theorem PointsTo.insertUnique (h : PointsTo hs m.cells name p) (hne : caselessCompare (ascii name) ds.key ≠ 0)
    (c : Cell) : PointsTo (hs.insertUnique ds).1 (m.insert hs ds c).cells name p := by
  unfold Headers.insertUnique
  cases hkey : hs.getIndex ds.key with
  | none =>
    rw [Mem.insert_none hkey]
    exact h.push hne c
  | some n =>
    obtain ⟨cells, next, heq, hcells⟩ := Mem.insert_some hkey m c
    rw [heq]
    refine PointsTo.congr ?_ (Headers.map_key_modify hs n _ fun _ => rfl)
    rcases hcells with rfl | ⟨c', rfl⟩
    · exact h
    · exact h.set hkey hne c'

theorem length_insert (hlen : m.cells.length = hs.length) (ds : DataString) (c : Cell) :
    (m.insert hs ds c).cells.length = (hs.insertUnique ds).1.length := by
  unfold Headers.insertUnique
  cases hkey : hs.getIndex ds.key with
  | none => simp [Mem.insert_none hkey, hlen]
  | some n =>
    obtain ⟨cells, next, heq, hcells⟩ := Mem.insert_some hkey m c
    rw [heq]
    rcases hcells with rfl | ⟨c', rfl⟩ <;> simp [hlen]

theorem HostPointsTo.congr {p : Option ValuePtr} (h : HostPointsTo hs p)
    (hkeys : hs'.map DataString.key = hs.map DataString.key) : HostPointsTo hs' p := by
  unfold HostPointsTo at h ⊢
  rwa [Headers.getIndex_congr hkeys]

theorem HostPointsTo.insertUnique {p : Option ValuePtr} (h : HostPointsTo hs p)
    (hne : caselessCompare (ascii "Host") ds.key ≠ 0) : HostPointsTo (hs.insertUnique ds).1 p := by
  unfold Headers.insertUnique
  cases hkey : hs.getIndex ds.key with
  | none =>
    unfold HostPointsTo at h ⊢
    rwa [Headers.getIndex_push, if_neg hne, Option.or_none]
  | some n => exact h.congr (Headers.map_key_modify hs n _ fun _ => rfl)

/-! ## The pointers -/

theorem isCached_name (q : Pointer) (h : caselessCompare (ascii q.name) key = 0) : isCached key = true := by
  cases q <;> simp_all [isCached]

/-- **What the fields `fs`, the last one first, leave of the pointers.** -/
structure Cached (v : Vars) (m : Mem) (fs : List Field) : Prop where
  length : m.cells.length = v.con.request.headers.length
  key : v.key = fs.head?.map Field.name
  host : HostPointsTo v.con.request.headers v.con.request.httpHost
  isSome : ∀ q : Pointer, (q.block m).isSome = (q.cached v.con.request).isSome
  pointsTo : ∀ q : Pointer, PointsTo v.con.request.headers m.cells q.name (q.block m) ∨
    q = .range ∧ m.range = none ∧ ∃ f ∈ fs, f.OtherRange

theorem block_insert (q : Pointer) (m : Mem) (hs : Headers) (ds : DataString) (c : Cell) :
    q.block (m.insert hs ds c) = q.block m := by
  cases hkey : hs.getIndex ds.key with
  | none =>
    rw [Mem.insert_none hkey]
    cases q <;> rfl
  | some n =>
    obtain ⟨cells, next, heq, -⟩ := Mem.insert_some hkey m c
    rw [heq]
    cases q <;> rfl

theorem pointer_ne {q q₀ : Pointer} (hq : q ≠ q₀) (h0 : caselessCompare (ascii q₀.name) key = 0) :
    caselessCompare (ascii q.name) key ≠ 0 := by
  intro h
  have hsame := caselessCompare_trans h (caselessCompare_symm h0)
  revert hq hsame
  cases q <;> cases q₀ <;> decide

theorem pointer_ne_host (q : Pointer) (h0 : caselessCompare (ascii q.name) key = 0) :
    caselessCompare (ascii "Host") key ≠ 0 := by
  intro h
  have hsame := caselessCompare_trans h (caselessCompare_symm h0)
  revert hsame
  cases q <;> decide

namespace Cached

variable {fs : List Field} {f : Field} {m₁ : Mem}

/-- The pointer `q` when `ds`, the field `f`, is inserted in the cell `c`: it stays, unless it is set to the new field. -/
inductive Inserts (v v' : Vars) (m m₁ : Mem) (ds : DataString) (c : Cell) (f : Field) (q : Pointer) : Prop where
  | stays (hblock : q.block m₁ = q.block m) (hcached : q.cached v'.con.request = q.cached v.con.request)
      (hne : caselessCompare (ascii q.name) ds.key ≠ 0 ∨ q = .range ∧ m.range = none ∧ f.OtherRange)
  | points (hname : caselessCompare (ascii q.name) ds.key = 0)
      (hindex : v.con.request.headers.getIndex (ascii q.name) = none) (hnew : q.block m₁ = some c.block)
      (hsome : (q.cached v'.con.request).isSome)

theorem insert (h : Cached v m fs) (hcells : m₁.cells = m.cells) (hkey : v'.key = some f.name)
    (hhs : v'.con.request.headers = (v.con.request.headers.insertUnique ds).1)
    (hhost : HostPointsTo (v.con.request.headers.insertUnique ds).1 v'.con.request.httpHost)
    (hq : ∀ q, Inserts v v' m m₁ ds c f q) : Cached v' (m₁.insert v.con.request.headers ds c) (f :: fs) where
  length := by
    rw [hhs]
    exact length_insert (hcells ▸ h.length) ds c
  key := hkey
  host := hhs ▸ hhost
  isSome q := by
    rw [block_insert]
    cases hq q with
    | stays hblock hcached => rw [hblock, hcached, h.isSome]
    | points _ _ hnew hsome =>
      rw [hnew, hsome]
      rfl
  pointsTo q := by
    rw [hhs, block_insert]
    cases hq q with
    | stays hblock _ hne =>
      have hrange : q = .range → m.range = none → (m₁.insert v.con.request.headers ds c).range = none := by
        rintro rfl hnone
        exact (block_insert .range m₁ _ ds c).trans (hblock.trans hnone)
      rw [hblock]
      rcases hne with hne | ⟨hr, hnone, hbad⟩
      · rcases h.pointsTo q with h' | ⟨hr, hnone, f', hf', hbad⟩
        · exact .inl (PointsTo.insertUnique (hcells ▸ h') hne c)
        · exact .inr ⟨hr, hrange hr hnone, f', List.mem_cons_of_mem f hf', hbad⟩
      · exact .inr ⟨hr, hrange hr hnone, f, List.mem_cons_self, hbad⟩
    | points hname hindex hnew =>
      have hdskey : v.con.request.headers.getIndex ds.key = none := by rw [← Headers.getIndex_caseless hname, hindex]
      rw [hnew, Headers.insertUnique, hdskey, Mem.insert_none hdskey, hcells]
      exact .inl (PointsTo.new hindex hname h.length c)

theorem insertPointer (h : Cached v m fs) (q₀ : Pointer) (hname : caselessCompare (ascii q₀.name) ds.key = 0)
    (hindex : v.con.request.headers.getIndex (ascii q₀.name) = none) (hcells : m₁.cells = m.cells)
    (hnew : q₀.block m₁ = some c.block) (hblock : ∀ q : Pointer, q ≠ q₀ → q.block m₁ = q.block m)
    (hkey : v'.key = some f.name) (hhs : v'.con.request.headers = (v.con.request.headers.insertUnique ds).1)
    (hhost : v'.con.request.httpHost = v.con.request.httpHost) (hsome : (q₀.cached v'.con.request).isSome)
    (hcached : ∀ q : Pointer, q ≠ q₀ → q.cached v'.con.request = q.cached v.con.request) :
    Cached v' (m₁.insert v.con.request.headers ds c) (f :: fs) := by
  refine h.insert hcells hkey hhs (hhost ▸ h.host.insertUnique (pointer_ne_host q₀ hname)) fun q => ?_
  by_cases hq : q = q₀
  · subst hq
    exact .points hname hindex hnew hsome
  · exact .stays (hblock q hq) (hcached q hq) (.inl (pointer_ne hq hname))

theorem skip (h : Cached v m fs) (hcells : m₁.cells = m.cells) (hblock : ∀ q : Pointer, q.block m₁ = q.block m)
    (hkey : v'.key = some f.name) (hreq : v'.con.request = v.con.request) : Cached v' m₁ (f :: fs) where
  length := by rw [hcells, hreq, h.length]
  key := hkey
  host := hreq ▸ h.host
  isSome q := by rw [hblock, hreq, h.isSome]
  pointsTo q := by
    rw [hreq, hcells, hblock]
    rcases h.pointsTo q with h' | ⟨rfl, hnone, f', hf', hbad⟩
    · exact .inl h'
    · exact .inr ⟨rfl, (hblock .range).trans hnone, f', List.mem_cons_of_mem f hf', hbad⟩

/-- There is no field of this name if its pointer is `NULL`. -/
theorem getIndex_none (h : Cached v m fs) (q : Pointer) (hq : q ≠ .range ∨ ∀ f ∈ fs, ¬f.OtherRange)
    (hnone : q.cached v.con.request = none) : v.con.request.headers.getIndex (ascii q.name) = none := by
  have hblock : q.block m = none := by
    have hsome := h.isSome q
    rw [hnone] at hsome
    simpa using hsome
  rcases h.pointsTo q with h' | ⟨rfl, -, f, hf, hbad⟩
  · rwa [hblock] at h'
  · rcases hq with hq | hq
    · exact absurd rfl hq
    · exact absurd hbad (hq f hf)

/-- **A field with a value.** A second `Range` is left out. -/
theorem setField (h : Cached v m fs) (o : Options) (host : Bool) (hvalue : ds.value ≠ [])
    (honce : ∀ f ∈ fs, f.isRange = true → caselessCompare (ascii "Range") ds.key ≠ 0) :
    Ends (fun _ => True) (fun v' => Cached v' (m.setField host v ds) (⟨ds.key, ds.value, []⟩ :: fs))
      (setField o host { v with key := some ds.key } ds) := by
  have hcells : (m.newValue ds.value.length).2.cells = m.cells := rfl
  have hblock : ∀ q : Pointer, q.block (m.newValue ds.value.length).2 = q.block m := fun q => by cases q <;> rfl
  have hcached : ∀ q : Pointer,
      q.cached ({ v with key := some ds.key }.insert ds).con.request = q.cached v.con.request :=
    fun q => by cases q <;> rfl
  have hplain : ∀ v' : Vars, v'.key = some ds.key → v'.con.request.headers = (v.con.request.headers.insertUnique ds).1 →
      v'.con.request.httpHost = v.con.request.httpHost →
      (∀ q : Pointer, q.cached v'.con.request = q.cached v.con.request) →
      (∀ q : Pointer, findName (ascii q.name) fieldNames ≠ findName ds.key fieldNames) →
      findName (ascii "Host") fieldNames ≠ findName ds.key fieldNames →
      Cached v' ((m.newValue ds.value.length).2.insert v.con.request.headers ds (m.newValue ds.value.length).1)
        (⟨ds.key, ds.value, []⟩ :: fs) := by
    intro v' hkey hhs hhost hq hname hnameHost
    exact h.insert hcells hkey hhs (hhost ▸ h.host.insertUnique (named_ne hnameHost))
      fun q => .stays (hblock q) (hq q) (.inl (named_ne (hname q)))
  unfold Request.setField Mem.setField
  cases hfind : findName ds.key fieldNames with
  | none =>
    refine hplain _ rfl rfl rfl hcached (fun q => ?_) ?_ <;> rw [hfind]
    · cases q <;> decide
    · decide
  | some name =>
    cases name with
    | connection =>
      refine hplain _ rfl rfl rfl hcached (fun q => ?_) ?_ <;> rw [hfind]
      · cases q <;> decide
      · decide
    | contentLength =>
      dsimp only
      unfold setContentLength
      refine Ends.ite (fun _ => trivial) fun _ => ?_
      refine Ends.ite (fun _ => trivial) fun _ => ?_
      dsimp only
      refine Ends.ite (fun _ => ?_) fun _ => trivial
      refine hplain _ rfl rfl rfl (fun q => by cases q <;> rfl) (fun q => ?_) ?_ <;> rw [hfind]
      · cases q <;> decide
      · decide
    | contentType =>
      have hname := (@findName_iff _ (ascii "Content-Type") _ (by simp [fieldNames])).mp hfind
      dsimp only
      unfold setContentType
      cases hnone : v.con.request.httpContentType with
      | some p => trivial
      | none =>
        have hindex := h.getIndex_none .contentType (.inl (by decide)) hnone
        refine h.insertPointer .contentType hname hindex rfl rfl (fun q hq => ?_) rfl rfl rfl rfl fun q hq => ?_
        · cases q <;> first | exact absurd rfl hq | rfl
        · cases q <;> first | exact absurd rfl hq | rfl
    | expect =>
      dsimp only
      unfold setExpect
      refine Ends.ite (fun _ => trivial) fun _ => ?_
      refine hplain _ rfl rfl rfl hcached (fun q => ?_) ?_ <;> rw [hfind]
      · cases q <;> decide
      · decide
    | host =>
      have hname := (@findName_iff _ (ascii "Host") _ (by simp [fieldNames])).mp hfind
      dsimp only
      unfold setHost
      cases host with
      | true => exact h.skip hcells hblock rfl rfl
      | false =>
        cases hnone : v.con.request.httpHost with
        | some p => trivial
        | none =>
          have hhost := h.host
          rw [hnone] at hhost
          have hdskey : v.con.request.headers.getIndex ds.key = none := by
            rw [← Headers.getIndex_caseless hname]
            exact hhost
          refine h.insert hcells rfl rfl ?_ fun q => ?_
          · show HostPointsTo _ (some (v.con.request.headers.insertUnique ds).2)
            rw [Headers.insertUnique, hdskey]
            exact ⟨v.con.request.headers.length, by simp [Headers.getIndex_push, show _ = none from hhost, hname], rfl⟩
          · exact .stays (hblock q) (by cases q <;> rfl) (.inl fun h0 => pointer_ne_host q h0 hname)
    | ifModifiedSince =>
      have hname := (@findName_iff _ (ascii "If-Modified-Since") _ (by simp [fieldNames])).mp hfind
      dsimp only
      unfold setIfModifiedSince
      cases hnone : v.con.request.httpIfModifiedSince with
      | some p =>
        refine Ends.ite (fun _ => ?_) fun _ => trivial
        exact h.skip hcells hblock rfl rfl
      | none =>
        have hindex := h.getIndex_none .ifModifiedSince (.inl (by decide)) hnone
        refine h.insertPointer .ifModifiedSince hname hindex rfl rfl (fun q hq => ?_) rfl rfl rfl rfl fun q hq => ?_
        · cases q <;> first | exact absurd rfl hq | rfl
        · cases q <;> first | exact absurd rfl hq | rfl
    | ifNoneMatch =>
      have hname := (@findName_iff _ (ascii "If-None-Match") _ (by simp [fieldNames])).mp hfind
      dsimp only
      unfold setIfNoneMatch
      cases hnone : v.con.request.httpIfNoneMatch with
      | some p => exact h.skip hcells hblock rfl rfl
      | none =>
        have hindex := h.getIndex_none .ifNoneMatch (.inl (by decide)) hnone
        refine h.insertPointer .ifNoneMatch hname hindex rfl rfl (fun q hq => ?_) rfl rfl rfl rfl fun q hq => ?_
        · cases q <;> first | exact absurd rfl hq | rfl
        · cases q <;> first | exact absurd rfl hq | rfl
    | range =>
      have hname := (@findName_iff _ (ascii "Range") _ (by simp [fieldNames])).mp hfind
      have hother : ∀ f ∈ fs, ¬f.OtherRange := fun f hf hbad => honce f hf hbad.1 hname
      dsimp only
      unfold setRange
      cases hnone : v.con.request.httpRange with
      | some p => trivial
      | none =>
        dsimp only
        split
        · have hindex := h.getIndex_none .range (.inr hother) hnone
          refine h.insertPointer .range hname hindex rfl rfl (fun q hq => ?_) rfl rfl rfl rfl fun q hq => ?_
          · cases q <;> first | exact absurd rfl hq | rfl
          · cases q <;> first | exact absurd rfl hq | rfl
        · rename_i hbytes
          have hrange : m.range = none := by
            have hsome := h.isSome .range
            simpa [Pointer.block, Pointer.cached, hnone] using hsome
          have hbad : Field.OtherRange ⟨ds.key, ds.value, []⟩ :=
            ⟨by simp [Field.isRange, hname, hvalue], by simpa using hbytes⟩
          refine h.insert hcells rfl rfl (h.host.insertUnique (pointer_ne_host .range hname)) fun q => ?_
          refine .stays (hblock q) (by cases q <;> rfl) ?_
          by_cases hq : q = .range
          · exact .inr ⟨hq, hrange, hbad⟩
          · exact .inl (pointer_ne hq hname)

theorem congr (h : Cached v m fs) (hkeys : hs'.map DataString.key = v.con.request.headers.map DataString.key)
    (hkey : v'.key = v.key) (hreq : v'.con.request = { v.con.request with headers := hs' }) : Cached v' m fs where
  length := by
    have hlen := congrArg List.length hkeys
    rw [List.length_map, List.length_map] at hlen
    rw [hreq, hlen, h.length]
  key := hkey.trans h.key
  host := by
    rw [hreq]
    exact h.host.congr hkeys
  isSome q := by
    rw [hreq, h.isSome]
    cases q <;> rfl
  pointsTo q := by
    rw [hreq]
    exact (h.pointsTo q).imp (fun h' => h'.congr hkeys) id

theorem fold_field (h : Cached v m (f :: fs)) (line : Bytes) :
    Cached v m ({ f with folds := f.folds ++ [line] } :: fs) where
  length := h.length
  key := h.key
  host := h.host
  isSome := h.isSome
  pointsTo q := by
    apply (h.pointsTo q).imp id
    rintro ⟨hq, hnone, f', hf', hbad⟩
    rcases List.mem_cons.mp hf' with rfl | hf'
    · exact ⟨hq, hnone, _, List.mem_cons_self, hbad⟩
    · exact ⟨hq, hnone, f', List.mem_cons_of_mem _ hf', hbad⟩

theorem setCell (h : Cached v m fs) (hkey : v.con.request.headers.getIndex key = some n) (hne : isCached key = false)
    {cells : List Cell} {next : Nat} (hcells : cells = m.cells ∨ ∃ c, cells = m.cells.set n c) :
    Cached v { m with cells := cells, next := next } fs where
  length := by
    rcases hcells with rfl | ⟨c, rfl⟩
    · exact h.length
    · simpa using h.length
  key := h.key
  host := h.host
  isSome q := by
    rw [← h.isSome q]
    cases q <;> rfl
  pointsTo q := by
    have hblock : q.block { m with cells := cells, next := next } = q.block m := by cases q <;> rfl
    rw [hblock]
    refine (h.pointsTo q).imp (fun h' => ?_) id
    rcases hcells with rfl | ⟨c, rfl⟩
    · exact h'
    · refine h'.set hkey (fun h0 => ?_) c
      rw [isCached_name q h0] at hne
      cases hne

end Cached

/-! ## The lines of the header -/

/-- A folded line of a field with a pointer fits in the block of the value. -/
def Mem.lineFits (m : Mem) (v : Vars) : Mode → Bool
  | .folding value =>
    match v.key with
    | none => true
    | some key =>
      match v.con.request.headers.getIndex key with
      | none => true
      | some n =>
        !isCached key ||
          (m.cells[n]?).all fun c => (v.con.request.headers.deref (.slot n)).length + 1 + value.length ≤ c.size
  | _ => true

variable {fs : List Field}

theorem Cached.memFold {f : Field} (h : Cached v m (f :: fs)) (value : Bytes)
    (hfits : m.lineFits v (.folding value) = true) : Cached v (m.fold v value) (f :: fs) := by
  have hv : v.key = some f.name := h.key
  simp only [Mem.lineFits, hv] at hfits
  simp only [Mem.fold, hv, Option.bind_some]
  cases hindex : v.con.request.headers.getIndex f.name with
  | none => exact h
  | some n =>
    simp only [hindex] at hfits
    dsimp only
    cases hc : isCached f.name with
    | true =>
      rw [Mem.append_fits fun c hcell => by simpa [hc, hcell] using hfits]
      exact h
    | false =>
      obtain ⟨cells, next, heq, hcells⟩ :=
        m.append_eq n ((v.con.request.headers.deref (.slot n)).length + 1) value.length
      rw [heq]
      exact h.setCell hindex hc hcells

/-- **A folded line.** -/
theorem Cached.fold {f : Field} (h : Cached v m (f :: fs)) (value : Bytes)
    (hfits : m.lineFits v (.folding value) = true) :
    Ends (fun _ => True) (fun v' => Cached v' (m.fold v value) ({ f with folds := f.folds ++ [value] } :: fs))
      (endOfFoldedLine v value) := by
  have hmem := h.memFold value hfits
  unfold endOfFoldedLine
  split
  · trivial
  · trivial
  · rename_i key _ hkey
    refine Cached.fold_field ?_ value
    refine hmem.congr (Headers.map_key_appendValue v.con.request.headers key value) ?_ ?_
    · rfl
    · rfl

/-- **The end of a line adds it to the fields.** -/
theorem Cached.endOfLine (h : Cached v m fs) (o : Options) (host : Bool) {pre : Bytes}
    (hm : ModeOf pre mode) (hline : crlf mode = .line) (hfits : m.lineFits v mode = true)
    (honce : ((addLine fs pre).filter Field.isRange).length ≤ 1) :
    Ends (fun _ => True) (fun v' => Cached v' (m.line host v mode) (addLine fs pre)) (endOfLine o host v mode) := by
  cases mode with
  | key token =>
    rw [crlf_key] at hline
    split at hline <;> cases hline
  | colon key => cases hline
  | value key value =>
    obtain ⟨hfold, hparse, hne⟩ := hm.value_line
    unfold addLine at honce ⊢
    rw [hfold, hparse] at honce
    rw [if_neg (by rw [hfold]; decide), hparse]
    show Ends _ _ (endOfHeaderLine o host v key value)
    unfold endOfHeaderLine Mem.line
    dsimp only at honce ⊢
    generalize value.rdropWhile isWs = value at honce ⊢
    cases value with
    | nil => exact h.skip rfl (fun _ => rfl) rfl rfl
    | cons c value =>
      refine h.setField o host (by simp) fun f hf hr h0 => ?_
      have hmem : f ∈ fs.filter Field.isRange := List.mem_filter.mpr ⟨hf, hr⟩
      have hpos : 0 < (fs.filter Field.isRange).length := List.length_pos_of_mem hmem
      have hnew : Field.isRange ⟨key, c :: value, []⟩ = true := by simp [Field.isRange, h0]
      rw [if_neg (by decide), List.filter_cons_of_pos hnew, List.length_cons] at honce
      omega
  | folding value =>
    obtain ⟨rfl, hfold⟩ := hm
    unfold addLine
    rw [if_pos hfold]
    show Ends _ _ (endOfFoldedLine v pre)
    cases fs with
    | nil =>
      have hkey : v.key = none := h.key
      unfold endOfFoldedLine
      rw [hkey]
      trivial
    | cons f fs => exact h.fold pre hfits

/-- The folded lines of the header fit in the blocks of the fields with a pointer. -/
def Mem.linesFit (o : Options) (reqlineHost : Bool) (v : Vars) (m : Mem) : List Bytes → Bool
  | [] => true
  | line :: ls =>
    match readLine o v.con (.key []) line with
    | .error _ => true
    | .ok mode =>
      m.lineFits v mode &&
        match endOfLine o reqlineHost v mode with
        | .error _ => true
        | .ok v' => linesFit o reqlineHost v' (m.line reqlineHost v mode) ls

theorem length_addLine (fs : List Field) (line : Bytes) :
    (fs.filter Field.isRange).length ≤ ((addLine fs line).filter Field.isRange).length := by
  unfold addLine
  split
  · cases fs with
    | nil => simp
    | cons f fs =>
      have hsame : Field.isRange { f with folds := f.folds ++ [line] } = f.isRange := rfl
      simp only [List.filter_cons, hsame]
      split <;> simp
  · rw [List.filter_cons]
    split
    · simp
    · exact Nat.le_refl _

theorem length_addLines (ls : List Bytes) (fs : List Field) :
    (fs.filter Field.isRange).length ≤ ((ls.foldl addLine fs).filter Field.isRange).length := by
  induction ls generalizing fs with
  | nil => exact Nat.le_refl _
  | cons line ls ih => exact Nat.le_trans (length_addLine fs line) (ih (addLine fs line))

/-- **The lines of the header.** -/
theorem Cached.lines {ls : List Bytes} (h : Cached v m fs)
    (hlines : ls.foldlM (headerLine o host) v = .ok v') (hfits : m.linesFit o host v ls = true)
    (honce : ((ls.foldl addLine fs).filter Field.isRange).length ≤ 1) :
    Cached v' (m.lines o host v ls) (ls.foldl addLine fs) := by
  induction ls generalizing v m fs with
  | nil =>
    cases hlines
    exact h
  | cons line ls ih =>
    rw [List.foldlM_cons] at hlines
    cases hline : headerLine o host v line with
    | error e =>
      rw [hline] at hlines
      cases hlines
    | ok v₁ =>
      rw [hline] at hlines
      unfold headerLine at hline
      cases hread : readLine o v.con (.key []) line with
      | error e => simp [hread] at hline
      | ok mode =>
        simp only [hread] at hline
        split at hline
        · rename_i hcr
          simp only [Mem.linesFit, hread, hline, Bool.and_eq_true] at hfits
          have hmode : ModeOf line mode := by simpa using readLine_modeOf hread modeOf_start
          have honce₁ := Nat.le_trans (length_addLines ls (addLine fs line)) honce
          have hcached := (h.endOfLine o host hmode hcr hfits.1 honce₁).of_ok hline
          simp only [Mem.lines, hread, hline]
          exact ih hcached hlines hfits.2 honce
        · cases hline

/-! ## The whole parser -/

theorem endOfRequestLine_pointers (o : Options) (con : Con) (l : ReqLine) :
    Ends (fun _ => True) (fun r => r.1.request.headers = con.request.headers ∧
      r.1.request.httpHost = con.request.httpHost ∧
      ∀ q : Pointer, q.cached r.1.request = q.cached con.request) (endOfRequestLine o con l) := by
  apply (endOfRequestLine_request o con l).mono (fun _ h => h)
  rintro _ ⟨method, version, v, -, -, -, rfl⟩
  exact ⟨rfl, rfl, fun q => by cases q <;> rfl⟩

theorem cached_start (hheaders : con.request.headers = []) (hhost : con.request.httpHost = none)
    (hnone : ∀ q : Pointer, q.cached con.request = none) (reqlineHost : Option Bytes) (unused : List Nat) :
    Cached (varsOf con reqlineHost) ((Mem.start unused).reqline reqlineHost) [] := by
  cases reqlineHost with
  | none =>
    have hlen : (Mem.start unused).cells.length = con.request.headers.length := by rw [hheaders]; rfl
    refine ⟨hlen, rfl, ?_, fun q => ?_, fun q => .inl ?_⟩
    · simp [varsOf, insertReqlineHost, hheaders, hhost, HostPointsTo, Headers.getIndex]
    · rw [show q.cached (varsOf con none).con.request = none from hnone q]
      cases q <;> rfl
    · rw [show (varsOf con none).con.request.headers = [] from hheaders]
      cases q <;> rfl
  | some host =>
    have hhs : (varsOf con (some host)).con.request.headers = [⟨ascii "Host", host⟩] := by
      simp [varsOf, insertReqlineHost, Con.insert, Headers.insertUnique, Headers.getIndex, hheaders]
    have hptr : (varsOf con (some host)).con.request.httpHost = some (.slot 0) := by
      simp [varsOf, insertReqlineHost, Con.insert, Headers.insertUnique, Headers.getIndex, hheaders]
    have hcached : ∀ q : Pointer, q.cached (varsOf con (some host)).con.request = none := fun q => by
      rw [← hnone q]
      cases q <;> rfl
    refine ⟨by rw [hhs]; rfl, rfl, ?_, fun q => ?_, fun q => .inl ?_⟩
    · rw [hhs, hptr]
      have hname : caselessCompare (ascii "Host") (ascii "Host") = 0 := by decide
      exact ⟨0, by simp [Headers.getIndex, hname], rfl⟩
    · rw [hcached q]
      cases q <;> rfl
    · rw [hhs]
      have hblock : q.block ((Mem.start unused).reqline (some host)) = none := by cases q <;> rfl
      have hindex : Headers.getIndex [⟨ascii "Host", host⟩] (ascii q.name) = none := by
        have hne : caselessCompare (ascii q.name) (ascii "Host") ≠ 0 := by cases q <;> decide
        simp [Headers.getIndex, hne]
      rw [hblock]
      exact hindex

/-- **The pointers agree with the lookups.** -/
structure AgreeAll (r : Request) (m : Mem) : Prop where
  host : HostPointsTo r.headers r.httpHost
  isSome : ∀ q : Pointer, (q.block m).isSome = (q.cached r).isSome
  pointsTo : ∀ q : Pointer, PointsTo r.headers m.cells q.name (q.block m)

theorem AgreeAll.getIndex_none {r : Request} {m : Mem} (h : AgreeAll r m) (q : Pointer) (hnull : q.block m = none) :
    r.headers.getIndex (ascii q.name) = none := by
  have hpoints := h.pointsTo q
  rwa [hnull] at hpoints

/-- The pointers agree with the lookups, but for a `Range` that is no range of bytes, which is not pointed to. -/
structure Agree (block : Bytes) (r : Request) (m : Mem) : Prop where
  host : HostPointsTo r.headers r.httpHost
  isSome : ∀ q : Pointer, (q.block m).isSome = (q.cached r).isSome
  pointsTo : ∀ q : Pointer, PointsTo r.headers m.cells q.name (q.block m) ∨
    q = .range ∧ m.range = none ∧ ∃ f ∈ blockFields block, f.OtherRange

/-- The folded lines of a request fit in the blocks of the fields with a pointer. -/
def foldsFit (o : Options) (con : Con) (unused : List Nat) : Bool :=
  match requestLineLoop o con ⟨0, [], [], [], []⟩ (parseRequest con) with
  | .error _ => true
  | .ok l => ((Mem.start unused).reqline l.reqlineHost).linesFit o l.reqlineHost.isSome (varsOf l.con l.reqlineHost)
      (headerLines (parseRequest con))

/-- **The cached header fields of an accepted request.** -/
theorem cached_agree (o : Options) (con : Con) (requestCount : Nat) (block : Bytes) (unused : List Nat)
    (h : (httpRequestParse o (nextRequest con requestCount block)).2.httpStatus = 0)
    (hfits : foldsFit o (nextRequest con requestCount block) unused = true)
    (honce : ((blockFields (parseRequest (nextRequest con requestCount block))).filter Field.isRange).length ≤ 1) :
    Agree (parseRequest (nextRequest con requestCount block))
      (httpRequestParse o (nextRequest con requestCount block)).2.request
      (Mem.parse o (nextRequest con requestCount block) unused) := by
  obtain ⟨ready, hparse⟩ := accepted_parse h
  generalize (httpRequestParse o (nextRequest con requestCount block)).2 = con₁ at hparse ⊢
  generalize hcon : nextRequest con requestCount block = con₀ at hparse hfits honce ⊢
  have hheaders : con₀.request.headers = [] := by rw [← hcon]; rfl
  have hhost : con₀.request.httpHost = none := by rw [← hcon]; rfl
  have hnone : ∀ q : Pointer, q.cached con₀.request = none := fun q => by rw [← hcon]; cases q <;> rfl
  obtain ⟨line, l, con', reqlineHost, v, hacc⟩ := parse_accepts (by rw [← hcon]; rfl) hparse
  obtain ⟨rest, hloop⟩ := hacc.loop
  obtain ⟨n, hpost⟩ := hacc.post
  obtain ⟨hheaders', hhost', hnone'⟩ := (endOfRequestLine_pointers o con₀ l).of_ok hacc.line_eq
  have hstart := cached_start (hheaders'.trans hheaders) (hhost'.trans hhost) (fun q => (hnone' q).trans (hnone q))
    reqlineHost unused
  have hrequest := (postProcess_request o _).of_ok hpost
  simp only [foldsFit, hloop] at hfits
  simp only [Mem.parse, hloop]
  rw [blockFields, List.filter_reverse, List.length_reverse] at honce
  have hcached := hstart.lines hacc.lines hfits honce
  have hkeys := map_key_hostChecked o v.con.request.headers v.con.request.httpHost
  dsimp only at hrequest
  rw [hrequest]
  refine ⟨hcached.host.congr hkeys, fun q => (hcached.isSome q).trans ?_, fun q => ?_⟩
  · cases q <;> rfl
  · apply (hcached.pointsTo q).imp (fun h' => h'.congr hkeys)
    rintro ⟨hq, hrange, f, hf, hbad⟩
    exact ⟨hq, hrange, f, List.mem_reverse.mpr hf, hbad⟩

/-- A request with a folded line that fits, and a duplicate that is ignored. -/
def foldedBlock : Bytes :=
  ascii "GET / HTTP/1.0\r\nIf-None-Match: a\r\n b\r\nRange: bytes=0-1\r\nif-none-match: c\r\n\r\n"

theorem cached_agree_sample :
    Agree (parseRequest (nextRequest (sampleCon "") 1 foldedBlock))
      (httpRequestParse sampleOptions (nextRequest (sampleCon "") 1 foldedBlock)).2.request
      (Mem.parse sampleOptions (nextRequest (sampleCon "") 1 foldedBlock) []) := by
  apply cached_agree sampleOptions (sampleCon "") 1 foldedBlock []
  all_goals rw [foldedBlock, ascii_ofList]
  · decide +kernel
  · decide
  · decide

def otherRangeBlock : Bytes := ascii "GET / HTTP/1.0\r\nRange: lines=0-1\r\n\r\n"

/-- **The field `Range` is stored, and `http_range` is `NULL`.** -/
theorem range_not_cached :
    (httpRequestParse sampleOptions (nextRequest (sampleCon "") 1 otherRangeBlock)).2.httpStatus = 0 ∧
      ¬AgreeAll (httpRequestParse sampleOptions (nextRequest (sampleCon "") 1 otherRangeBlock)).2.request
        (Mem.parse sampleOptions (nextRequest (sampleCon "") 1 otherRangeBlock) []) := by
  rw [otherRangeBlock, ascii_ofList]
  constructor
  · decide +kernel
  · intro h
    have hnone := h.getIndex_none .range (by decide)
    revert hnone
    decide +kernel

end Request

end Lighttpd
