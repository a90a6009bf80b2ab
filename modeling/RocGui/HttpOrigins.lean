import Mathlib.Algebra.Ring.Nat
import Mathlib.Data.List.Basic
import Mathlib.Data.Nat.Notation

/-! A send of an HTTP client: the checks of the request and of the addresses of its host, and
where the connections made for it go. -/
namespace HttpOrigins

section Addresses

structure Ipv4Addr where
  (a b c d : UInt8)
  deriving DecidableEq

structure Ipv6Addr where
  (a b c d e f g h : UInt16)
  deriving DecidableEq

inductive IpAddr where
  | v4 (ip : Ipv4Addr)
  | v6 (ip : Ipv6Addr)
  deriving DecidableEq

structure SocketAddr where
  ip : IpAddr
  port : UInt16
  deriving DecidableEq

def Ipv4Addr.isPrivate (ip : Ipv4Addr) : Bool :=
  ip.a == 10 || (ip.a == 172 && 16 ≤ ip.b && ip.b ≤ 31) || (ip.a == 192 && ip.b == 168)

def Ipv4Addr.isLoopback (ip : Ipv4Addr) : Bool := ip.a == 127
def Ipv4Addr.isLinkLocal (ip : Ipv4Addr) : Bool := ip.a == 169 && ip.b == 254
def Ipv4Addr.isBroadcast (ip : Ipv4Addr) : Bool := ip = ⟨255, 255, 255, 255⟩
def Ipv4Addr.isUnspecified (ip : Ipv4Addr) : Bool := ip = ⟨0, 0, 0, 0⟩
def Ipv4Addr.isMulticast (ip : Ipv4Addr) : Bool := 224 ≤ ip.a && ip.a ≤ 239

def Ipv6Addr.isLoopback (ip : Ipv6Addr) : Bool := ip = ⟨0, 0, 0, 0, 0, 0, 0, 1⟩
def Ipv6Addr.isUnspecified (ip : Ipv6Addr) : Bool := ip = ⟨0, 0, 0, 0, 0, 0, 0, 0⟩
def Ipv6Addr.isMulticast (ip : Ipv6Addr) : Bool := ip.a &&& 0xff00 == 0xff00

def unsafeIndirectDestination : IpAddr → Bool
  | .v4 ip =>
    ip.isPrivate || ip.isLoopback || ip.isLinkLocal || ip.isBroadcast || ip.isUnspecified ||
      ip.isMulticast || ip.a == 0 || (ip.a == 100 && 64 ≤ ip.b && ip.b ≤ 127) ||
      (ip.a == 192 && ip.b == 0) || (ip.a == 192 && ip.b == 0 && ip.c == 2) ||
      (ip.a == 198 && (ip.b == 18 || ip.b == 19)) || (ip.a == 198 && ip.b == 51 && ip.c == 100) ||
      (ip.a == 203 && ip.b == 0 && ip.c == 113) || 240 ≤ ip.a
  | .v6 ip =>
    ip.isLoopback || ip.isUnspecified || ip.isMulticast || ip.a &&& 0xfe00 == 0xfc00 ||
      ip.a &&& 0xffc0 == 0xfe80

end Addresses

section Texts

/-! `str::parse::<IpAddr>`: each reader answers what is left of the text. -/

def digit (radix : ℕ) (c : Char) : Option ℕ :=
  let value :=
    if '0' ≤ c ∧ c ≤ '9' then some (c.toNat - '0'.toNat)
    else if 'a' ≤ c ∧ c ≤ 'z' then some (c.toNat - 'a'.toNat + 10)
    else if 'A' ≤ c ∧ c ≤ 'Z' then some (c.toNat - 'A'.toNat + 10)
    else none
  value.filter (· < radix)

def readNumber (radix maxDigits limit : ℕ) (allowZeroPrefix : Bool) (s : List Char) :
    Option (ℕ × List Char) :=
  let digits := (s.takeWhile fun c => (digit radix c).isSome).filterMap (digit radix)
  let value := digits.foldl (fun value d => value * radix + d) 0
  if digits = [] ∨ digits.length > maxDigits ∨ value > limit ∨
      (!allowZeroPrefix ∧ digits.head? = some 0 ∧ digits.length > 1) then none
  else some (value, s.drop digits.length)

/-- `read_separator`: the separator stands before all but the first. -/
def readSeparated {α : Type} (separator : Char) (first : Bool)
    (inner : List Char → Option (α × List Char)) (s : List Char) : Option (α × List Char) :=
  if first then inner s
  else match s with
    | c :: s => if c = separator then inner s else none
    | [] => none

def readOctets : ℕ → Bool → List Char → Option (List ℕ × List Char)
  | 0, _, s => some ([], s)
  | n + 1, first, s => do
    let (octet, s) ← readSeparated '.' first (readNumber 10 3 255 false) s
    let (octets, s) ← readOctets n false s
    return (octet :: octets, s)

def readIpv4Addr (s : List Char) : Option (List ℕ × List Char) := readOctets 4 true s

/-- At most so many groups, and whether the last two are an IPv4 address. -/
def readGroups : ℕ → Bool → List Char → List ℕ × Bool × List Char
  | 0, _, s => ([], false, s)
  | n + 1, first, s =>
    match if 1 ≤ n then readSeparated ':' first readIpv4Addr s else none with
    | some (octets, s) =>
      ([octets.getD 0 0 * 256 + octets.getD 1 0, octets.getD 2 0 * 256 + octets.getD 3 0], true, s)
    | none =>
      match readSeparated ':' first (readNumber 16 4 65535 true) s with
      | some (group, s) =>
        let (groups, isV4, s) := readGroups n false s
        (group :: groups, isV4, s)
      | none => ([], false, s)

def readIpv6Addr (s : List Char) : Option (List ℕ × List Char) :=
  let (head, isV4, s) := readGroups 8 true s
  if head.length = 8 then some (head, s)
  else if isV4 then none
  else match s with
    | ':' :: ':' :: s =>
      let limit := 8 - (head.length + 1)
      let (tail, _, s) := readGroups limit true s
      some (head ++ List.replicate (8 - head.length - tail.length) 0 ++ tail, s)
    | _ => none

def parsesAsIpAddr (host : String) : Bool :=
  match (readIpv4Addr host.toList).orElse fun _ => readIpv6Addr host.toList with
  | some (_, rest) => rest.isEmpty
  | none => false

example : parsesAsIpAddr "192.168.0.1" = true ∧ parsesAsIpAddr "::ffff:10.0.0.1" = true ∧
    parsesAsIpAddr "[::1]" = false ∧ parsesAsIpAddr "example.com" = false ∧
    parsesAsIpAddr "1.2.3.04" = false := by decide

end Texts

section Sends

inductive Error where
  | accessDenied | bodyTooLarge | connectFailed | invalidCapability | invalidHeader
  | invalidRequest | invalidUrl | redirectLimit | revoked | timeout | unsupportedScheme
  deriving DecidableEq

/-- What the accessors of a URL answer; the port is `port_or_known_default`. -/
structure Url where
  scheme : String
  username : String
  password : Option String
  hostStr : Option String
  port : Option UInt16
  deriving DecidableEq

def sameOrigin (a b : Url) : Bool :=
  a.scheme == b.scheme && a.hostStr == b.hostStr && a.port == b.port

/-- The addresses that a resolver answers for a host and a port, or none on failure. -/
abbrev Resolver := String → UInt16 → Option (List SocketAddr)

def pinnedDestination (resolver : Resolver) (url : Url) :
    Except Error (Option (String × SocketAddr)) :=
  if url.username ≠ "" ∨ url.password.isSome then .error .accessDenied
  else match url.hostStr with
    | none => .error .invalidUrl
    | some host =>
      if parsesAsIpAddr host then .ok none
      else match url.port with
        | none => .error .invalidUrl
        | some port =>
          match resolver host port with
          | none => .error .connectFailed
          | some [] => .error .accessDenied
          | some (address :: rest) =>
            if (address :: rest).any fun address => unsafeIndirectDestination address.ip then
              .error .accessDenied
            else .ok (some (host, address))

structure SendArgs where
  url : String
  body : List UInt8
  headers : List (String × String)
  method : UInt8
  methodExt : String
  timeoutMs : ℕ
  maxResponseBytes : ℕ
  maxRedirects : ℕ

inductive Method where
  | connect | delete | query | get | head | options | patch | post | put | trace
  | extension (name : String)
  deriving DecidableEq

/-- How a client is built. `follows` is the redirect policy: of the next URL and how many there
were before it. -/
structure Config where
  timeout : ℕ
  follows : Url → ℕ → Bool
  resolve : Option (String × SocketAddr)

structure Request where
  method : Method
  url : Url
  body : List UInt8
  headers : List (String × String)

structure Response where
  status : UInt16
  contentLength : Option ℕ
  headers : List (String × List UInt8)
  body : Option (List UInt8)

inductive Failure where
  | timeout | other

structure Connection where
  url : Url
  address : SocketAddr
  deriving DecidableEq

/-- What a client does for a request: what it asks the redirect policy, in order, the connections
it makes, and what comes of it. -/
structure Exchange where
  asked : List (Url × ℕ)
  connections : List Connection
  outcome : Except Failure Response

/-- The URL parser and the HTTP client that are linked in. -/
structure Library where
  parse : String → Option Url
  methodFromBytes : String → Bool
  build : Config → Bool
  headerName : String → Bool
  headerValue : String → Bool
  exchange : Config → Request → Exchange
  /-- The text of a header's value, where it is one. -/
  toStr : List UInt8 → Option String

structure Answer where
  status : UInt16
  headers : List (String × String)
  body : List UInt8

def method (lib : Library) (args : SendArgs) : Except Error Method :=
  match args.method.toNat with
  | 0 => .ok .connect
  | 1 => .ok .delete
  | 2 => .ok .query
  | 3 => .ok .get
  | 4 => .ok .head
  | 5 => .ok .options
  | 6 => .ok .patch
  | 7 => .ok .post
  | 8 => .ok .put
  | 9 => .ok .trace
  | 10 =>
    if lib.methodFromBytes args.methodExt then .ok (.extension args.methodExt)
    else .error .invalidRequest
  | _ => .error .invalidRequest

def admitted (lib : Library) (origin : Url) (args : SendArgs) : Except Error Url :=
  if ¬(1 ≤ args.timeoutMs ∧ args.timeoutMs ≤ 60000) ∨
      ¬(1 ≤ args.maxResponseBytes ∧ args.maxResponseBytes ≤ 4 * 1024 * 1024) ∨
      args.maxRedirects > 10 ∨ args.body.length > 1024 * 1024 ∨ args.headers.length > 64 then
    .error .invalidRequest
  else match lib.parse args.url with
    | none => .error .invalidUrl
    | some parsed =>
      if parsed.scheme ≠ "http" ∧ parsed.scheme ≠ "https" then .error .unsupportedScheme
      else if !sameOrigin origin parsed then .error .accessDenied
      else .ok parsed

def headerBytes (headers : List (String × String)) : ℕ :=
  (headers.map fun (n, v) => n.utf8ByteSize + v.utf8ByteSize).sum

def config (origin : Url) (args : SendArgs) (pinned : Option (String × SocketAddr)) : Config where
  timeout := args.timeoutMs
  follows url previous := sameOrigin origin url && !decide (previous ≥ args.maxRedirects)
  resolve := pinned

def prepared (lib : Library) (origin : Url) (args : SendArgs) (url : Url)
    (pinned : Option (String × SocketAddr)) : Except Error Request :=
  if headerBytes args.headers > 32768 then .error .invalidHeader
  else match method lib args with
    | .error e => .error e
    | .ok method =>
      if !lib.build (config origin args pinned) then .error .invalidRequest
      else if !args.headers.all fun (n, v) => lib.headerName n && lib.headerValue v then
        .error .invalidHeader
      else .ok ⟨method, url, args.body, args.headers⟩

/-- What is made of the outcome. `stopped` is set by the policy when it does not follow. -/
def received (lib : Library) (args : SendArgs) (config : Config) (exchange : Exchange) :
    Except Error Answer :=
  match exchange.outcome with
  | .error .timeout => .error .timeout
  | .error .other => .error .connectFailed
  | .ok response =>
    let stopped := exchange.asked.any fun (url, previous) => !config.follows url previous
    if stopped then .error .redirectLimit
    else if response.contentLength.any (· > args.maxResponseBytes) then .error .bodyTooLarge
    else if response.headers.length > 64 ∨
        (response.headers.map fun (n, v) => n.utf8ByteSize + v.length).sum > 32768 then
      .error .invalidHeader
    else match response.body with
      | none => .error .connectFailed
      | some body =>
        if body.length > args.maxResponseBytes then .error .bodyTooLarge
        else .ok ⟨response.status,
          response.headers.map fun (n, v) => (n, (lib.toStr v).getD "<non-text>"), body⟩

/-- `send`, for the outcome of the lookup of its client, with the connections made for it. -/
def send (lib : Library) (resolver : Resolver) (origin : Except Error Url) (args : SendArgs) :
    Except Error Answer × List Connection :=
  match origin with
  | .error e => (.error e, [])
  | .ok origin =>
    match admitted lib origin args with
    | .error e => (.error e, [])
    | .ok url =>
      match pinnedDestination resolver url with
      | .error e => (.error e, [])
      | .ok pinned =>
        match prepared lib origin args url pinned with
        | .error e => (.error e, [])
        | .ok request =>
          let exchange := lib.exchange (config origin args pinned) request
          (received lib args (config origin args pinned) exchange, exchange.connections)

end Sends

section Properties

def ipv4Of (hi lo : UInt16) : Ipv4Addr :=
  ⟨(hi >>> 8).toUInt8, hi.toUInt8, (lo >>> 8).toUInt8, lo.toUInt8⟩

/-- The IPv4 addresses that an IPv6 address embeds: mapped, compatible and translated ones, those
behind the well-known prefix of a translator, 6to4, Teredo and ISATAP. -/
def embedded (ip : Ipv6Addr) : List Ipv4Addr :=
  let leading := ip.a == 0 && ip.b == 0 && ip.c == 0 && ip.d == 0
  let last :=
    (leading && ip.e == 0 && ip.f == 0xffff) ||
      (leading && ip.e == 0 && ip.f == 0 && (ip.g != 0 || ip.h > 1)) ||
      (leading && ip.e == 0xffff && ip.f == 0) ||
      (ip.a == 0x64 && ip.b == 0xff9b && ip.c == 0 && ip.d == 0 && ip.e == 0 && ip.f == 0) ||
      ((ip.e == 0 || ip.e == 0x200) && ip.f == 0x5efe)
  (if last then [ipv4Of ip.g ip.h] else []) ++ (if ip.a == 0x2002 then [ipv4Of ip.b ip.c] else []) ++
    if ip.a == 0x2001 && ip.b == 0 then [ipv4Of ip.c ip.d, ipv4Of (~~~ip.g) (~~~ip.h)] else []

def InnerPublic : IpAddr → Prop
  | .v4 _ => True
  | .v6 ip => ∀ inner ∈ embedded ip, unsafeIndirectDestination (.v4 inner) = false

/-- An address that no rule refuses, and that embeds only such ones. -/
def Public (ip : IpAddr) : Prop := unsafeIndirectDestination ip = false ∧ InnerPublic ip

/-- The connections go to the granted origin, and for a host that is a name to a public address. -/
def StaysInside (origin : Url) (connections : List Connection) : Prop :=
  ∀ c ∈ connections, sameOrigin origin c.url = true ∧
    ∀ host, c.url.hostStr = some host → parsesAsIpAddr host = false → Public c.address.ip

/-- What is relied on of the client: it connects for the request's URL and then only for URLs that
the policy lets it follow, and a host that is resolved in its configuration is looked up nowhere
else. -/
structure Documented (lib : Library) : Prop where
  connects : ∀ config request, ∃ c ∈ (lib.exchange config request).connections, c.url = request.url
  follows : ∀ config request, ∀ c ∈ (lib.exchange config request).connections,
    c.url = request.url ∨ ∃ previous, config.follows c.url previous = true
  resolves : ∀ config request, ∀ c ∈ (lib.exchange config request).connections,
    ∀ host address, config.resolve = some (host, address) → c.url.hostStr = some host →
      c.address.ip = address.ip

def Accepts (lib : Library) (origin : Url) (args : SendArgs) (url : Url)
    (pinned : Option (String × SocketAddr)) : Prop :=
  admitted lib origin args = .ok url ∧ url.username = "" ∧ url.password = none ∧
    ∃ request, prepared lib origin args url pinned = .ok request

/-- Where a request that is let pass names its host, and the rules refuse no address of it, the
first address embeds only public ones. -/
def FirstInnerPublic (lib : Library) (resolver : Resolver) (origin : Url) (args : SendArgs) : Prop :=
  ∀ url host port first rest, Accepts lib origin args url (some (host, first)) →
    url.hostStr = some host → parsesAsIpAddr host = false → url.port = some port →
    resolver host port = some (first :: rest) →
    (∀ address ∈ first :: rest, unsafeIndirectDestination address.ip = false) →
    InnerPublic first.ip

end Properties

section Results

variable {lib : Library} {resolver : Resolver} {origin url : Url} {args : SendArgs}

theorem same_origin_iff {a b : Url} :
    sameOrigin a b = true ↔ a.scheme = b.scheme ∧ a.hostStr = b.hostStr ∧ a.port = b.port := by
  simp [sameOrigin, and_assoc]

theorem admitted_ok (h : admitted lib origin args = .ok url) : sameOrigin origin url = true := by
  unfold admitted at h
  split at h
  · cases h
  split at h
  · cases h
  split at h
  · cases h
  split at h
  · cases h
  · rename_i hsame
    cases h
    simpa using hsame

theorem pinned_ok {pinned : Option (String × SocketAddr)}
    (h : pinnedDestination resolver url = .ok pinned) : url.username = "" ∧ url.password = none ∧
      ((∃ host, url.hostStr = some host ∧ parsesAsIpAddr host = true ∧ pinned = none) ∨
        ∃ host port first rest, url.hostStr = some host ∧ parsesAsIpAddr host = false ∧
          url.port = some port ∧ resolver host port = some (first :: rest) ∧
          (∀ address ∈ first :: rest, unsafeIndirectDestination address.ip = false) ∧
          pinned = some (host, first)) := by
  unfold pinnedDestination at h
  split at h
  · cases h
  rename_i huser
  obtain ⟨hname, hpassword⟩ := not_or.mp huser
  refine ⟨not_not.mp hname, by simpa using hpassword, ?_⟩
  split at h
  · cases h
  rename_i host hhost
  split at h
  · rename_i hip
    cases h
    exact .inl ⟨host, hhost, hip, rfl⟩
  rename_i hname
  split at h
  · cases h
  rename_i port hport
  split at h
  · cases h
  · cases h
  rename_i first rest hresolved
  split at h
  · cases h
  rename_i hsafe
  cases h
  refine .inr ⟨host, port, first, rest, hhost, by simpa using hname, hport, hresolved, ?_, rfl⟩
  simpa using hsafe

theorem pinned_of_name {host : String} {port : UInt16} {first : SocketAddr}
    {rest : List SocketAddr} (hname : url.username = "") (hpassword : url.password = none)
    (hhost : url.hostStr = some host) (hip : parsesAsIpAddr host = false)
    (hport : url.port = some port) (hresolved : resolver host port = some (first :: rest))
    (hsafe : ∀ address ∈ first :: rest, unsafeIndirectDestination address.ip = false) :
    pinnedDestination resolver url = .ok (some (host, first)) := by
  have hnone : ((first :: rest).any fun address => unsafeIndirectDestination address.ip) = false :=
    List.any_eq_false.mpr fun address hmem => by simp [hsafe address hmem]
  simp only [pinnedDestination, hname, hpassword, hhost, hip, hport, hresolved, hnone]
  rfl

theorem connections_of_send {c : Connection}
    (hc : c ∈ (send lib resolver (.ok origin) args).2) :
    ∃ url pinned request, admitted lib origin args = .ok url ∧
      pinnedDestination resolver url = .ok pinned ∧
      prepared lib origin args url pinned = .ok request ∧
      c ∈ (lib.exchange (config origin args pinned) request).connections := by
  unfold send at hc
  dsimp only at hc
  split at hc
  · cases hc
  rename_i url hadmitted
  split at hc
  · cases hc
  rename_i pinned hpinned
  split at hc
  · cases hc
  rename_i request hprepared
  exact ⟨url, pinned, request, hadmitted, hpinned, hprepared, hc⟩

theorem send_connections {pinned : Option (String × SocketAddr)} {request : Request}
    (hadmitted : admitted lib origin args = .ok url)
    (hpinned : pinnedDestination resolver url = .ok pinned)
    (hprepared : prepared lib origin args url pinned = .ok request) :
    (send lib resolver (.ok origin) args).2 =
      (lib.exchange (config origin args pinned) request).connections := by
  simp only [send, hadmitted, hpinned, hprepared]

theorem prepared_url {pinned : Option (String × SocketAddr)} {request : Request}
    (h : prepared lib origin args url pinned = .ok request) : request.url = url := by
  unfold prepared at h
  split at h
  · cases h
  split at h
  · cases h
  split at h
  · cases h
  split at h <;> cases h
  rfl

theorem connection_same_origin (documented : Documented lib) {c : Connection}
    (hc : c ∈ (send lib resolver (.ok origin) args).2) : sameOrigin origin c.url = true := by
  obtain ⟨url, pinned, request, hadmitted, -, hprepared, hc⟩ := connections_of_send hc
  obtain hfirst | ⟨previous, hfollows⟩ := documented.follows _ _ c hc
  · rw [hfirst, prepared_url hprepared]
    exact admitted_ok hadmitted
  · exact (Bool.and_eq_true _ _ ▸ hfollows).1

end Results

section Runs

/-- A client that makes one connection, for the request's URL, and is redirected nowhere. -/
def exchangeOnce (config : Config) (request : Request) : Exchange where
  asked := []
  connections := [⟨request.url, (config.resolve.map Prod.snd).getD ⟨.v4 ⟨0, 0, 0, 0⟩, 0⟩⟩]
  outcome := .ok ⟨200, some 2, [("server", [110])], some [111, 107]⟩

def exampleUrl : Url := ⟨"https", "", none, some "example.com", some 443⟩

def exampleLibrary : Library where
  parse text := if text = "https://example.com/" then some exampleUrl else none
  methodFromBytes _ := false
  build _ := true
  headerName _ := true
  headerValue _ := true
  exchange := exchangeOnce
  toStr _ := some "n"

theorem example_documented : Documented exampleLibrary where
  connects _ _ := ⟨_, List.mem_singleton.mpr rfl, rfl⟩
  follows _ _ c hc := .inl (by rw [List.mem_singleton.mp hc])
  resolves config request c hc host address hresolve _ := by
    rw [List.mem_singleton.mp hc]
    change ((config.resolve.map Prod.snd).getD _).ip = address.ip
    rw [hresolve]
    rfl

def exampleArgs : SendArgs := ⟨"https://example.com/", [], [], 3, "", 1000, 1024, 0⟩

def answering (ip : IpAddr) : Resolver := fun _ _ => some [⟨ip, 443⟩]

def mappedLoopback : IpAddr := .v6 ⟨0, 0, 0, 0, 0, 0xffff, 0x7f00, 1⟩

end Runs

end HttpOrigins
