import Grapevine.Lib.Net
import Grapevine.Lib.Common

/-!
# Destinations of server names

A request to a server goes to the address and port that `findActualDestination` makes of the server's
name, under a `Host` header that it also makes.  The well-known file of the name and the SRV records
come from a `Resolver`.

* `ServerName`   a name of the grammar: a host, in brackets or not, and a port or none;
* `denotes`      what host and what port a name or a `FedDest` stands for;
* `Splits`       an address in brackets has a port, which fits a port.

Main result: `destination_splits_iff`.  The destination and the `Host` header stand for the host and the
port of the name, or of the name that the well-known file delegates to, exactly if `Splits` holds of it.
Without a port the brackets reach neither parser of addresses, and are cut at the first colon
(`destination_brackets`).
-/

namespace Grapevine
open Kv Kv.Reader

namespace Destination

variable {a : Ipv6Addr}

inductive FedDest where
  | literal (addr : SocketAddr)
  | named (host port : List Char)

namespace FedDest

def toUriString : FedDest → List Char
  | literal addr => addr.toText
  | named host port => host ++ port

/-- `str::parse::<u16>` -/
def parseU16 (s : List Char) : Option (Fin 65536) :=
  let digits := match s with
    | '+' :: digits => digits
    | _ => s
  if h : value 10 digits < 65536 then
    if digits ≠ [] ∧ digits.all (isDigit 10) then some ⟨value 10 digits, h⟩ else none
  else none

def port : FedDest → Option (Fin 65536)
  | literal addr => some addr.port
  | named _ (':' :: x) => parseU16 x
  | named _ _ => none

end FedDest

/-- what other servers say: the name that the well-known file of a name delegates to, and the first SRV
record of a name -/
structure Resolver where
  requestWellKnown : List Char → Option (List Char)
  querySrvRecord : List Char → Option FedDest

/-- `:8448` -/
def defaultPort : List Char := [':', '8', '4', '4', '8']

def getIpWithPort (destinationStr : List Char) : Option FedDest :=
  match socketAddr.all destinationStr with
  | some destination => some (.literal destination)
  | none =>
    match ipAddr.all destinationStr with
    | some ip => some (.literal (.new ip 8448))
    | none => none

/-- `find(':')` and `split_at` -/
def splitColon (s : List Char) : Option (List Char × List Char) :=
  if ':' ∈ s then some (s.takeWhile (· ≠ ':'), s.dropWhile (· ≠ ':')) else none

def addPortToHostname (destinationStr : List Char) : FedDest :=
  match splitColon destinationStr with
  | none => .named destinationStr defaultPort
  | some (host, port) => .named host port

section
variable (env : Resolver)

/-- 3.3 and 3.4 of a delegated name, 4 and 5 of a name -/
def withSrvRecord (hostname : List Char) : FedDest :=
  match env.querySrvRecord hostname with
  | some hostnameOverride =>
    match hostnameOverride.port with
    | some port => .named hostname (':' :: Nat.toDigits 10 port)
    | none => addPortToHostname hostname
  | none => addPortToHostname hostname

/-- the destination, and the name for the `Host` header -/
def actualDestination (destinationStr : List Char) : FedDest × List Char :=
  match getIpWithPort destinationStr with
  -- 1: IP literal with provided or default port
  | some hostPort => (hostPort, destinationStr)
  | none =>
    match splitColon destinationStr with
    -- 2: Hostname with included port
    | some (host, port) => (.named host port, destinationStr)
    | none =>
      match env.requestWellKnown destinationStr with
      -- 3: A .well-known file is available
      | some delegatedHostname =>
        let hostname := (addPortToHostname delegatedHostname).toUriString
        match getIpWithPort delegatedHostname with
        | some hostAndPort => (hostAndPort, hostname)
        | none =>
          match splitColon delegatedHostname with
          | some (host, port) => (.named host port, hostname)
          | none => (withSrvRecord env delegatedHostname, hostname)
      | none => (withSrvRecord env destinationStr, destinationStr)

def hostHeader (hostname : List Char) : FedDest :=
  match socketAddr.all hostname with
  | some addr => .literal addr
  | none =>
    match ipAddr.all hostname with
    | some addr => .named addr.toText defaultPort
    | none =>
      match splitColon hostname with
      | some (host, port) => .named host port
      | none => .named hostname defaultPort

def findActualDestination (destination : List Char) : FedDest × FedDest :=
  let (actual, hostname) := actualDestination env destination
  (actual, hostHeader hostname)

end

/-! ## what names and destinations stand for -/

inductive Host where
  | name (s : List Char)
  | ip (a : IpAddr)

/-- `dns-char` -/
def dnsChar (c : Char) : Bool := c.isAlphanum || c = '-' || c = '.'

/-- a DNS name or an IPv4 literal, or an address in brackets -/
def hostOf (s : List Char) : Option Host :=
  match ipv4Addr.all s with
  | some a => some (.ip (.v4 a))
  | none =>
    match s with
    | '[' :: s => if s.getLast? = some ']' then (ipv6Addr.all s.dropLast).map (fun a => .ip (.v6 a)) else none
    | s => if s ≠ [] ∧ s.all dnsChar then some (.name s) else none

/-- a colon and digits -/
def portOf : List Char → Option Nat
  | ':' :: digits => if digits ≠ [] ∧ digits.all (isDigit 10) then some (value 10 digits) else none
  | _ => none

def FedDest.denotes : FedDest → Option (Host × Nat)
  | .literal addr => some (.ip addr.ip, addr.port)
  | .named host port => (hostOf host).bind fun h => (portOf port).map fun p => (h, p)

/-- the host of a server name -/
inductive HostText where
  | bare (s : List Char) (valid : s ≠ [] ∧ ∀ c ∈ s, dnsChar c = true)
  | bracketed (s : List Char) (a : Ipv6Addr) (valid : ipv6Addr.all s = some a)

namespace HostText

def text : HostText → List Char
  | bare s _ => s
  | bracketed s _ _ => '[' :: (s ++ [']'])

def host : HostText → Host
  | bare s _ => match ipv4Addr.all s with
    | some a => .ip (.v4 a)
    | none => .name s
  | bracketed _ a _ => .ip (.v6 a)

end HostText

/-- the digits of a port -/
structure PortText where
  digits : List Char
  valid : Digits digits

structure ServerName where
  host : HostText
  port : Option PortText

namespace ServerName

def text (n : ServerName) : List Char :=
  match n.port with
  | some p => n.host.text ++ ':' :: p.digits
  | none => n.host.text

def denotes (n : ServerName) : Host × Nat :=
  (n.host.host, match n.port with
    | some p => value 10 p.digits
    | none => 8448)

/-- an address in brackets has a port -/
def Splits (n : ServerName) : Prop :=
  match n.host with
  | .bare _ _ => True
  | .bracketed _ _ _ => ∃ p, n.port = some p ∧ value 10 p.digits < 65536

end ServerName

/-- the well-known file and the SRV records of a name are asked for -/
def Asks (s : List Char) : Prop := getIpWithPort s = none ∧ splitColon s = none

section
variable {s p : List Char}

/-! ## hosts and ports -/

theorem bare_of_dns (h : s ≠ [] ∧ ∀ c ∈ s, dnsChar c = true) : Bare s := by
  have hno : ∀ c, dnsChar c = false → c ∉ s := fun c hc hin => by
    have hvalid := h.2 c hin
    rw [hc] at hvalid
    cases hvalid
  exact ⟨hno ':' rfl, fun hb => hno '[' rfl (List.mem_of_mem_head? hb)⟩

theorem hostOf_bare (h : s ≠ [] ∧ ∀ c ∈ s, dnsChar c = true) : hostOf s = some (HostText.bare s h).host := by
  have hb := (bare_of_dns h).2
  unfold hostOf HostText.host
  cases hs : ipv4Addr.all s with
  | some a => simp only [hs]
  | none =>
    simp only [hs]
    split
    · exact absurd rfl hb
    · exact if_pos ⟨h.1, List.all_eq_true.mpr h.2⟩

theorem hostOf_toText (a : Ipv4Addr) : hostOf a.toText = some (.ip (.v4 a)) := by
  unfold hostOf
  rw [ipv4Addr_toText]

/-- half of an address in brackets is not a host -/
theorem hostOf_bracket (h : ':' ∉ s) : hostOf ('[' :: s) = none := by
  have hfour : ipv4Addr.all ('[' :: s) = none := all_of_none (andThen_of_none (number_of_head rfl))
  have hsix : ipv6Addr.all s.dropLast = none := by
    apply all_of_none
    apply ipv6Addr_none
    rw [List.count_eq_zero.mpr fun hc => h (List.dropLast_subset _ hc)]
    decide
  unfold hostOf
  rw [hfour]
  show (if s.getLast? = some ']' then (ipv6Addr.all s.dropLast).map (fun a => Host.ip (.v6 a)) else none) = none
  rw [hsix]
  split <;> rfl

theorem portOf_digits (h : Digits p) : portOf (':' :: p) = some (value 10 p) :=
  if_pos ⟨h.1, List.all_eq_true.mpr h.2⟩

theorem digits_default : Digits ['8', '4', '4', '8'] := ⟨List.cons_ne_nil _ _, List.all_eq_true.mp rfl⟩

theorem named_denotes {host : Host} (hs : hostOf s = some host) (hp : Digits p) :
    (FedDest.named s (':' :: p)).denotes = some (host, value 10 p) := by
  unfold FedDest.denotes
  simp only [hs, portOf_digits hp]
  rfl

theorem named_default_denotes {host : Host} (hs : hostOf s = some host) :
    (FedDest.named s defaultPort).denotes = some (host, 8448) := named_denotes hs digits_default

/-! ## the first colon -/

theorem splitColon_none (h : ':' ∉ s) : splitColon s = none := if_neg h

theorem splitColon_append (h : ':' ∉ s) (p : List Char) : splitColon (s ++ ':' :: p) = some (s, ':' :: p) := by
  obtain ⟨htake, hdrop⟩ := takeWhile_append (t := ':' :: p) (f := (· ≠ ':')) (fun c hc => by cases hc; rfl) s
  have hall : ∀ c ∈ s, decide (c ≠ ':') = true := fun c hc => decide_eq_true fun he => h (he ▸ hc)
  unfold splitColon
  rw [if_pos (List.mem_append_right s List.mem_cons_self), htake, hdrop, List.takeWhile_eq_self_iff.mpr hall,
    List.dropWhile_eq_nil_iff.mpr hall]
  rfl

theorem splitColon_glue {host port : List Char} (h : splitColon s = some (host, port)) : host ++ port = s := by
  unfold splitColon at h
  split at h
  · cases h
    exact List.takeWhile_append_dropWhile
  · cases h

/-- the brackets are cut in two -/
theorem splitColon_bracket (h : ipv6Addr.all s = some a) (t : List Char) :
    ∃ left right, splitColon ('[' :: (s ++ ']' :: t)) = some ('[' :: left, right) ∧ ':' ∉ left := by
  have hcolon : ':' ∈ s := by
    have hcount := ipv6Addr_colons (all_eq.mp h)
    exact List.count_pos_iff.mp (by omega)
  refine ⟨(s ++ ']' :: t).takeWhile (· ≠ ':'), _, if_pos ?_, fun hc => ?_⟩
  · exact List.mem_cons_of_mem _ (List.mem_append_left _ hcolon)
  · exact absurd (List.mem_takeWhile_imp hc) (by decide)

end

/-! ## one name -/

section
variable (env : Resolver)
variable {addr : SocketAddr} {ip : IpAddr}

/-- a name that is not delegated -/
def destinationOf (s : List Char) : FedDest :=
  match getIpWithPort s with
  | some d => d
  | none =>
    match splitColon s with
    | some (host, port) => .named host port
    | none => withSrvRecord env s

variable {env} {s p : List Char}

theorem getIpWithPort_literal (h : socketAddr.all s = some addr) :
    getIpWithPort s = some (.literal addr) := by
  unfold getIpWithPort
  rw [h]

theorem getIpWithPort_ip (h : socketAddr.all s = none) (hip : ipAddr.all s = some ip) :
    getIpWithPort s = some (.literal (.new ip 8448)) := by
  unfold getIpWithPort
  rw [h, hip]

theorem getIpWithPort_none (h : socketAddr.all s = none) (hip : ipAddr.all s = none) : getIpWithPort s = none := by
  unfold getIpWithPort
  rw [h, hip]

theorem destinationOf_some {d : FedDest} (h : getIpWithPort s = some d) : destinationOf env s = d := by
  unfold destinationOf
  rw [h]

theorem destinationOf_split (h : getIpWithPort s = none) {host port : List Char}
    (hs : splitColon s = some (host, port)) : destinationOf env s = .named host port := by
  unfold destinationOf
  rw [h, hs]

theorem destinationOf_asks (h : Asks s) (hsrv : env.querySrvRecord s = none) :
    destinationOf env s = .named s defaultPort := by
  unfold destinationOf withSrvRecord addPortToHostname
  simp only [h.1, h.2, hsrv]

theorem hostHeader_literal (h : socketAddr.all s = some addr) : hostHeader s = .literal addr := by
  unfold hostHeader
  rw [h]

theorem hostHeader_ip (h : socketAddr.all s = none) (hip : ipAddr.all s = some ip) :
    hostHeader s = .named ip.toText defaultPort := by
  unfold hostHeader
  rw [h, hip]

theorem hostHeader_split (h : socketAddr.all s = none) (hip : ipAddr.all s = none) {host port : List Char}
    (hs : splitColon s = some (host, port)) : hostHeader s = .named host port := by
  unfold hostHeader
  rw [h, hip, hs]

theorem hostHeader_none (h : socketAddr.all s = none) (hip : ipAddr.all s = none) (hs : splitColon s = none) :
    hostHeader s = .named s defaultPort := by
  unfold hostHeader
  rw [h, hip, hs]

/-- a host without brackets and without a port -/
theorem bare_denotes (env : Resolver) (h : s ≠ [] ∧ ∀ c ∈ s, dnsChar c = true) (hsrv : Asks s → env.querySrvRecord s = none) :
    (destinationOf env s).denotes = some ((HostText.bare s h).host, 8448) ∧
      (hostHeader s).denotes = some ((HostText.bare s h).host, 8448) := by
  have hbare := bare_of_dns h
  have hsocket := socketAddr_of_noColon hbare.1
  have hip := ipAddr_of_colons (s := s) (by rw [List.count_eq_zero.mpr hbare.1]; decide)
  cases hs : ipv4Addr.all s with
  | some a =>
    rw [hs] at hip
    have hhost : (HostText.bare s h).host = .ip (.v4 a) := by
      unfold HostText.host
      simp only [hs]
    rw [destinationOf_some (getIpWithPort_ip hsocket hip), hostHeader_ip hsocket hip, hhost]
    exact ⟨rfl, named_default_denotes (hostOf_toText a)⟩
  | none =>
    rw [hs] at hip
    have hasks : Asks s := ⟨getIpWithPort_none hsocket hip, splitColon_none hbare.1⟩
    rw [destinationOf_asks hasks (hsrv hasks), hostHeader_none hsocket hip hasks.2]
    exact ⟨named_default_denotes (hostOf_bare h), named_default_denotes (hostOf_bare h)⟩

theorem bare_port_denotes (env : Resolver) (h : s ≠ [] ∧ ∀ c ∈ s, dnsChar c = true) (hp : Digits p) :
    (destinationOf env (s ++ ':' :: p)).denotes = some ((HostText.bare s h).host, value 10 p) ∧
      (hostHeader (s ++ ':' :: p)).denotes = some ((HostText.bare s h).host, value 10 p) := by
  have hbare := bare_of_dns h
  have hip := ipAddr_bare_port hbare.1 hp
  have hsplit := splitColon_append hbare.1 p
  have hsocket := socketAddr_bare_port hbare hp
  have hnamed : socketAddr.all (s ++ ':' :: p) = none →
      (destinationOf env (s ++ ':' :: p)).denotes = some ((HostText.bare s h).host, value 10 p) ∧
      (hostHeader (s ++ ':' :: p)).denotes = some ((HostText.bare s h).host, value 10 p) := fun hnone => by
    rw [destinationOf_split (getIpWithPort_none hnone hip) hsplit, hostHeader_split hnone hip hsplit]
    exact ⟨named_denotes (hostOf_bare h) hp, named_denotes (hostOf_bare h) hp⟩
  cases hs : ipv4Addr.all s with
  | none =>
    rw [hs, Option.bind_none] at hsocket
    exact hnamed hsocket
  | some a =>
    rw [hs, Option.bind_some] at hsocket
    by_cases hlt : value 10 p < 65536
    · rw [dif_pos hlt] at hsocket
      have hhost : (HostText.bare s h).host = .ip (.v4 a) := by
        unfold HostText.host
        simp only [hs]
      rw [destinationOf_some (getIpWithPort_literal hsocket), hostHeader_literal hsocket, hhost]
      exact ⟨rfl, rfl⟩
    · rw [dif_neg hlt] at hsocket
      exact hnamed hsocket

/-- an address in brackets that is not read with its port -/
theorem brackets_denote (env : Resolver) (h : ipv6Addr.all s = some a) {t : List Char}
    (hsocket : socketAddr.all ('[' :: (s ++ ']' :: t)) = none) :
    (destinationOf env ('[' :: (s ++ ']' :: t))).denotes = none ∧ (hostHeader ('[' :: (s ++ ']' :: t))).denotes = none := by
  have hip := ipAddr_bracketed (s ++ ']' :: t)
  obtain ⟨left, right, hsplit, hleft⟩ := splitColon_bracket h t
  rw [destinationOf_split (getIpWithPort_none hsocket hip) hsplit, hostHeader_split hsocket hip hsplit]
  unfold FedDest.denotes
  simp only [hostOf_bracket hleft]
  exact ⟨rfl, rfl⟩

theorem bracketed_port_text (s p : List Char) : '[' :: (s ++ [']']) ++ ':' :: p = '[' :: (s ++ ']' :: ':' :: p) := by
  rw [List.cons_append, List.append_assoc]
  rfl

theorem name_denotes_iff (env : Resolver) (n : ServerName) (hsrv : Asks n.text → env.querySrvRecord n.text = none) :
    ((destinationOf env n.text).denotes = some n.denotes ↔ n.Splits) ∧
      ((hostHeader n.text).denotes = some n.denotes ↔ n.Splits) := by
  obtain ⟨host, port⟩ := n
  cases host with
  | bare s h =>
    cases port with
    | none =>
      obtain ⟨hdest, hhost⟩ := bare_denotes env h hsrv
      exact ⟨iff_of_true hdest trivial, iff_of_true hhost trivial⟩
    | some p =>
      obtain ⟨hdest, hhost⟩ := bare_port_denotes env h p.valid
      exact ⟨iff_of_true hdest trivial, iff_of_true hhost trivial⟩
  | bracketed s a h =>
    cases port with
    | none =>
      obtain ⟨hdest, hhost⟩ := brackets_denote env h (socketAddr_bracketed_bare h)
      have hsplits : ¬ ServerName.Splits ⟨.bracketed s a h, none⟩ := fun ⟨_, hp, _⟩ => by cases hp
      exact ⟨iff_of_false (fun he => by cases hdest.symm.trans he) hsplits,
        iff_of_false (fun he => by cases hhost.symm.trans he) hsplits⟩
    | some p =>
      have hsocket := socketAddr_bracketed_port h p.valid
      have htext : ServerName.text ⟨.bracketed s a h, some p⟩ = '[' :: (s ++ ']' :: ':' :: p.digits) :=
        bracketed_port_text s p.digits
      rw [htext]
      by_cases hlt : value 10 p.digits < 65536
      · rw [dif_pos hlt] at hsocket
        rw [destinationOf_some (getIpWithPort_literal hsocket), hostHeader_literal hsocket]
        have hsplits : ServerName.Splits ⟨.bracketed s a h, some p⟩ := ⟨p, rfl, hlt⟩
        exact ⟨iff_of_true rfl hsplits, iff_of_true rfl hsplits⟩
      · rw [dif_neg hlt] at hsocket
        obtain ⟨hdest, hhost⟩ := brackets_denote env h hsocket
        have hsplits : ¬ ServerName.Splits ⟨.bracketed s a h, some p⟩ := fun ⟨q, hq, hlt'⟩ => by
          cases hq
          exact hlt hlt'
        exact ⟨iff_of_false (fun he => by cases hdest.symm.trans he) hsplits,
          iff_of_false (fun he => by cases hhost.symm.trans he) hsplits⟩

/-! ## the function -/

theorem findActualDestination_direct (h : Asks s → env.requestWellKnown s = none) :
    findActualDestination env s = (destinationOf env s, hostHeader s) := by
  unfold findActualDestination actualDestination destinationOf
  cases hip : getIpWithPort s with
  | some d => rfl
  | none =>
    cases hs : splitColon s with
    | some x => rfl
    | none =>
      simp only [h ⟨hip, hs⟩]

theorem findActualDestination_delegated (h : Asks s) {d : List Char} (hd : env.requestWellKnown s = some d) :
    findActualDestination env s = (destinationOf env d, hostHeader (addPortToHostname d).toUriString) := by
  unfold findActualDestination actualDestination destinationOf
  simp only [h.1, h.2, hd]
  cases getIpWithPort d with
  | some x => rfl
  | none =>
    cases splitColon d with
    | some x => rfl
    | none => rfl

/-- the text that is put together again is the name, with the default port where it has none -/
theorem delegated_denotes_iff (d : ServerName) :
    (hostHeader (addPortToHostname d.text).toUriString).denotes = some d.denotes ↔ d.Splits := by
  have hcolon : ':' ∈ d.text → ((hostHeader (addPortToHostname d.text).toUriString).denotes = some d.denotes ↔
      d.Splits) := by
    intro hc
    have hsplit : splitColon d.text = some (d.text.takeWhile (· ≠ ':'), d.text.dropWhile (· ≠ ':')) := if_pos hc
    have htext : (addPortToHostname d.text).toUriString = d.text := by
      unfold addPortToHostname
      rw [hsplit]
      exact splitColon_glue hsplit
    rw [htext]
    exact (name_denotes_iff ⟨fun _ => none, fun _ => none⟩ d fun _ => rfl).2
  obtain ⟨host, port⟩ := d
  cases port with
  | some p => exact hcolon (List.mem_append_right _ List.mem_cons_self)
  | none =>
    cases host with
    | bare s h =>
      have htext : (addPortToHostname s).toUriString = s ++ ':' :: ['8', '4', '4', '8'] := by
        unfold addPortToHostname
        rw [splitColon_none (bare_of_dns h).1]
        rfl
      refine iff_of_true ?_ trivial
      show (hostHeader (addPortToHostname s).toUriString).denotes = _
      rw [htext]
      exact (bare_port_denotes ⟨fun _ => none, fun _ => none⟩ h digits_default).2
    | bracketed s a h =>
      have hcount := ipv6Addr_colons (all_eq.mp h)
      exact hcolon (List.mem_cons_of_mem _ (List.mem_append_left _ (List.count_pos_iff.mp (by omega))))

end

/-- **Server names.**  What is made of a name stands for its host and its port exactly if an address in
brackets has a port. -/
theorem destination_splits_iff (env : Resolver) :
    (∀ n : ServerName,
      (Asks n.text → env.requestWellKnown n.text = none ∧ env.querySrvRecord n.text = none) →
      ((findActualDestination env n.text).1.denotes = some n.denotes ∧
        (findActualDestination env n.text).2.denotes = some n.denotes ↔ n.Splits)) ∧
    ∀ n d : ServerName, Asks n.text → env.requestWellKnown n.text = some d.text →
      (Asks d.text → env.querySrvRecord d.text = none) →
      ((findActualDestination env n.text).1.denotes = some d.denotes ∧
        (findActualDestination env n.text).2.denotes = some d.denotes ↔ d.Splits) := by
  constructor
  · intro n h
    obtain ⟨hdest, hhost⟩ := name_denotes_iff env n fun ha => (h ha).2
    rw [findActualDestination_direct fun ha => (h ha).1, hdest, hhost, and_self_iff]
  · intro n d hasks hd hsrv
    rw [findActualDestination_delegated hasks hd, (name_denotes_iff env d hsrv).1, delegated_denotes_iff d,
      and_self_iff]

/-- `[::1]` -/
def loopback : ServerName :=
  ⟨.bracketed [':', ':', '1'] ⟨[0, 0, 0, 0, 0, 0, 0, 1], rfl⟩ rfl, none⟩

/-- `[::1]:8933` -/
def loopbackPort : ServerName :=
  ⟨loopback.host, some ⟨['8', '9', '3', '3'], List.cons_ne_nil _ _, List.all_eq_true.mp rfl⟩⟩

/-- a DNS name -/
def exOrg : ServerName :=
  ⟨.bare ['e', 'x', '.', 'o', 'r', 'g'] ⟨List.cons_ne_nil _ _, List.all_eq_true.mp rfl⟩, none⟩

theorem asks_exOrg : Asks exOrg.text := ⟨rfl, rfl⟩

/-- a resolver that knows at most a well-known file -/
def delegating (d : Option (List Char)) : Resolver := ⟨fun _ => d, fun _ => none⟩

theorem destination_splits_iff_port :
    ((findActualDestination (delegating none) loopbackPort.text).1.denotes = some loopbackPort.denotes ∧
      (findActualDestination (delegating none) loopbackPort.text).2.denotes = some loopbackPort.denotes) ∧
    (findActualDestination (delegating (some loopbackPort.text)) exOrg.text).1.denotes = some loopbackPort.denotes ∧
      (findActualDestination (delegating (some loopbackPort.text)) exOrg.text).2.denotes
        = some loopbackPort.denotes :=
  have hsplits : loopbackPort.Splits := ⟨_, rfl, by decide⟩
  ⟨((destination_splits_iff (delegating none)).1 loopbackPort fun _ => ⟨rfl, rfl⟩).mpr hsplits,
    ((destination_splits_iff (delegating (some loopbackPort.text))).2 exOrg loopbackPort asks_exOrg rfl
      fun _ => rfl).mpr hsplits⟩

/-- the brackets are cut at the first colon of `[::1]`, and no port is added -/
theorem destination_brackets :
    (¬ ∀ (env : Resolver) (n : ServerName),
      (Asks n.text → env.requestWellKnown n.text = none ∧ env.querySrvRecord n.text = none) →
      (findActualDestination env n.text).1.denotes = some n.denotes ∧
        (findActualDestination env n.text).2.denotes = some n.denotes) ∧
    ¬ ∀ (env : Resolver) (n d : ServerName), Asks n.text → env.requestWellKnown n.text = some d.text →
      (Asks d.text → env.querySrvRecord d.text = none) →
      (findActualDestination env n.text).1.denotes = some d.denotes ∧
        (findActualDestination env n.text).2.denotes = some d.denotes := by
  constructor
  · intro hall
    have hdest := (hall (delegating none) loopback fun _ => ⟨rfl, rfl⟩).1
    rw [show (findActualDestination (delegating none) loopback.text).1 = .named ['['] [':', ':', '1', ']'] from rfl]
      at hdest
    cases hdest
  · intro hall
    have hdest := (hall (delegating (some loopback.text)) exOrg loopback asks_exOrg rfl fun _ => rfl).1
    rw [show (findActualDestination (delegating (some loopback.text)) exOrg.text).1
      = .named ['['] [':', ':', '1', ']'] from rfl] at hdest
    cases hdest

end Destination
end Grapevine
