import Dockerset.Go.Slice
import Dockerset.Go.Strings

/-!
# The CIDR checker (`checker/main.go`, `checker/openwrt.go`)

`getCIDR` goes over the interfaces of a ubus response and collects the networks of
one of them in two slices; `httpHandler` answers by whether the client's address
lies in one of them. The slices are those of `Go/Slice.lean`, with their arrays:
the loop appends to one slice and assigns the result to the other.

A response is what `json.Unmarshal` has made of it, with the fields that are read.
The addresses and ranges of `net` and `iprange` are parameters, and so is the
router, which may answer in another way every time.
-/

namespace Dockerset.CidrChecker
open Go

structure Ipv4Address where
  address : Str
  mask : Int
deriving DecidableEq

structure Ipv6 where
  address : Str
  mask : Int
deriving DecidableEq

structure Interface where
  interface : Str
  ipv4Address : List Ipv4Address
  ipv6PrefixAssignment : List Ipv6
deriving DecidableEq

structure RealResult where
  interface : List Interface
deriving DecidableEq

structure Result where
  realResult : Option RealResult
deriving DecidableEq

structure JsonError where
  message : Str
deriving DecidableEq

structure WelcomeElement where
  result : List Result
  error : Option JsonError
deriving DecidableEq

abbrev Welcome := List WelcomeElement

/-- `fmt.Sprintf("%s/%d", address, mask)`. -/
def sprintfCidr (address : Str) (mask : Int) : Str := address ++ '/' :: decimal mask

def Ipv4Address.cidr (addr : Ipv4Address) : Str := sprintfCidr addr.address addr.mask

def Ipv6.cidr (addr : Ipv6) : Str := sprintfCidr addr.address addr.mask

/-! ## `getCIDR` -/

/-- The two slices, and the arrays that they are of. -/
structure Lists where
  heap : Heap Str
  ipv4 : Slice
  ipv6 : Slice
deriving DecidableEq

def Lists.empty : Lists := ⟨[], .nil, .nil⟩

/-- `ipv4 = append(ipv4, cidr)`. -/
def Lists.addIpv4 (g : Growth) (l : Lists) (cidr : Str) : Lists where
  heap := (l.ipv4.append g l.heap [cidr]).2
  ipv4 := (l.ipv4.append g l.heap [cidr]).1
  ipv6 := l.ipv6

/-- `ipv6 = append(ipv4, cidr)`, which is what the loop over the prefixes does. -/
def Lists.addIpv6 (g : Growth) (l : Lists) (cidr : Str) : Lists where
  heap := (l.ipv4.append g l.heap [cidr]).2
  ipv4 := l.ipv4
  ipv6 := (l.ipv4.append g l.heap [cidr]).1

section

variable (g : Growth) (iface : Str)

def Lists.addInterface (l : Lists) (i : Interface) : Lists :=
  if i.interface = iface then
    let l := i.ipv4Address.foldl (fun l addr => l.addIpv4 g addr.cidr) l
    i.ipv6PrefixAssignment.foldl (fun l addr => l.addIpv6 g addr.cidr) l
  else l

def Lists.addResult (l : Lists) (r : Result) : Lists :=
  match r.realResult with
  | none => l
  | some realResult => realResult.interface.foldl (Lists.addInterface g iface) l

/-- The loop over the response; it stops at an error of the router. -/
def Lists.addResponse (l : Lists) : Welcome → Except Str Lists
  | [] => .ok l
  | w :: response =>
    match w.error with
    | some error => .error error.message
    | none => (w.result.foldl (Lists.addResult g iface) l).addResponse response

/-- What comes of posting the request. -/
inductive Reply where
  | fetchError (message : Str)
  | notJson
  | response (response : Welcome)

def getCIDR : Reply → Except Str Lists
  | .fetchError message => .error message
  | .notJson => .ok .empty
  | .response response => Lists.empty.addResponse g iface response

end

/-! ## `httpHandler` -/

/-- `net.ParseIP`, `iprange.ParseRange` and `Contains`. -/
structure Net where
  IP : Type
  Range : Type
  parseIP : Str → Option IP
  parseRange : Str → Option Range
  contains : Range → IP → Bool

/-- The router: a request with a token, and a login. -/
structure Router (W : Type) where
  dump : Str → W → Reply × W
  doAuth : W → Option Str × W

/-- Which of the two configured codes is the answer. -/
inductive Status where
  | statusOk
  | statusFail
deriving DecidableEq

def failedCountLimit : Nat := 3

def accessDeniedErrMsg : Str := "Access denied"

section

variable {W : Type} (g : Growth) (iface : Str) (net : Net) (router : Router W)

/-- The loop with the tries that are left; no lists when the answer is a failure already. -/
def fetchLists : Nat → Str → W → Option Lists × Str × W
  | 0, token, w => (some .empty, token, w)
  | tries + 1, token, w =>
    let (reply, w) := router.dump token w
    match getCIDR g iface reply with
    | .ok lists => (some lists, token, w)
    | .error err =>
      if err = accessDeniedErrMsg then
        match router.doAuth w with
        | (none, w) => (none, token, w)
        | (some token, w) => fetchLists tries token w
      else (none, token, w)

/-- The ranges of `append(ipv4, ipv6...)` that parse, and whether one has the address. -/
def admits (lists : Lists) (ip : net.IP) : Status :=
  let joined := lists.ipv4.append g lists.heap (lists.ipv6.read lists.heap)
  let ipRanges := (joined.1.read joined.2).filterMap net.parseRange
  if ipRanges.any fun ipRange => net.contains ipRange ip then .statusOk else .statusFail

/-- The answer, with the token and the router after it. -/
def httpHandler (realIP : Str) (token : Str) (w : W) : Status × Str × W :=
  if realIP = [] then (.statusFail, token, w)
  else
    match net.parseIP realIP with
    | none => (.statusFail, token, w)
    | some ip =>
      match fetchLists g iface router failedCountLimit token w with
      | (none, token, w) => (.statusFail, token, w)
      | (some lists, token, w) => (admits g net lists ip, token, w)

end

end Dockerset.CidrChecker
