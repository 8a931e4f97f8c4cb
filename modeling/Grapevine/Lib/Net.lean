import Grapevine.Lib.Bytes
import Grapevine.Lib.Reader

/-!
# Texts of internet addresses

What the standard library reads as an address, and as an address with a port.

* `Ipv4Addr`, `Ipv6Addr`   `ipv4Addr` and `ipv6Addr` read them, `toText` writes them;
* `SocketAddr`             an address with a port, for `v6` in brackets;
* `Bare s`, `Digits p`     a host that is not in brackets, and the digits of a port.

Main results: what the readers make of a host with a port and without one (`socketAddr_bare_port`,
`socketAddr_bracketed_port`, `socketAddr_of_noColon`, `ipAddr_of_colons`), and an `Ipv4Addr` is read back
from its text (`ipv4Addr_toText`).
-/

namespace Kv
open Reader

instance neZero_word : NeZero 65536 := ⟨by decide⟩

structure Ipv4Addr where
  a : Fin 256
  b : Fin 256
  c : Fin 256
  d : Fin 256
deriving DecidableEq

structure Ipv6Addr where
  segments : List (Fin 65536)
  eight : segments.length = 8
deriving DecidableEq

inductive IpAddr where
  | v4 (a : Ipv4Addr)
  | v6 (a : Ipv6Addr)
deriving DecidableEq

inductive SocketAddr where
  | v4 (ip : Ipv4Addr) (port : Fin 65536)
  | v6 (ip : Ipv6Addr) (port : Fin 65536) (scopeId : Fin 4294967296)
deriving DecidableEq

namespace SocketAddr

def new : IpAddr → Fin 65536 → SocketAddr
  | .v4 a, port => .v4 a port
  | .v6 a, port => .v6 a port 0

def ip : SocketAddr → IpAddr
  | .v4 a _ => .v4 a
  | .v6 a _ _ => .v6 a

def port : SocketAddr → Fin 65536
  | .v4 _ port => port
  | .v6 _ port _ => port

end SocketAddr

/-! ## readers -/

namespace Reader

def octet : Reader (Fin 256) := number 10 (some 3) false 256

def ipv4Addr : Reader Ipv4Addr :=
  octet.andThen fun a => (char '.').andThen fun _ => octet.andThen fun b => (char '.').andThen fun _ =>
    octet.andThen fun c => (char '.').andThen fun _ => octet.andThen fun d => ret ⟨a, b, c, d⟩

def group : Reader (Fin 65536) := number 16 (some 4) true 65536

/-- `read_separator`: the first one has none -/
def separated {α : Type} (first : Bool) (p : Reader α) : Reader α :=
  if first then p else (char ':').andThen fun _ => p

/-- the two groups of an address in front of which `:` or nothing stands -/
def embedded (a : Ipv4Addr) : List (Fin 65536) :=
  [⟨a.a.val * 256 + a.b.val, by omega⟩, ⟨a.c.val * 256 + a.d.val, by omega⟩]

/-- `read_groups`: at most `n` groups, and whether the last two were written as an `Ipv4Addr` -/
def groups (first : Bool) : Nat → List Char → (List (Fin 65536) × Bool) × List Char
  | 0, s => (([], false), s)
  | n + 1, s =>
    match if 0 < n then separated first ipv4Addr s else none with
    | some (a, s) => ((embedded a, true), s)
    | none =>
      match separated first group s with
      | some (g, s) =>
        let rest := groups false n s
        ((g :: rest.1.1, rest.1.2), rest.2)
      | none => (([], false), s)

theorem groups_length (first : Bool) (n : Nat) (s : List Char) : (groups first n s).1.1.length ≤ n := by
  induction n generalizing first s with
  | zero => exact le_rfl
  | succ n ih =>
    unfold groups
    split
    · next h =>
      split at h
      · show 2 ≤ n + 1
        omega
      · cases h
    · split
      · exact Nat.succ_le_succ (ih false _)
      · exact Nat.zero_le _

/-- the groups in front of `::` and behind it -/
def joined (head tail : List (Fin 65536)) : List (Fin 65536) :=
  head ++ List.replicate (8 - tail.length - head.length) 0 ++ tail

theorem joined_length {head tail : List (Fin 65536)} (hle : head.length ≤ 8)
    (htail : tail.length ≤ 8 - (head.length + 1)) : (joined head tail).length = 8 := by
  unfold joined
  rw [List.length_append, List.length_append, List.length_replicate]
  omega

def ipv6Addr : Reader Ipv6Addr := fun s =>
  let head := groups true 8 s
  if h : head.1.1.length = 8 then some (⟨head.1.1, h⟩, head.2)
  else if head.1.2 then none
  else ((char ':').andThen fun _ => (char ':').andThen fun _ => fun s =>
    let tail := groups true (8 - (head.1.1.length + 1)) s
    some (⟨joined head.1.1 tail.1.1, joined_length (groups_length _ _ _) (groups_length _ _ _)⟩, tail.2)) head.2

def ipAddr : Reader IpAddr := (ipv4Addr.map .v4).orElse (ipv6Addr.map .v6)

def port : Reader (Fin 65536) := (char ':').andThen fun _ => number 10 none true 65536

def scopeId : Reader (Fin 4294967296) := (char '%').andThen fun _ => number 10 none true 4294967296

def socketAddr : Reader SocketAddr :=
  (ipv4Addr.andThen fun a => port.andThen fun p => ret (.v4 a p)).orElse
    ((char '[').andThen fun _ => ipv6Addr.andThen fun a => (scopeId.orElse (ret 0)).andThen fun scope =>
      (char ']').andThen fun _ => port.andThen fun p => ret (.v6 a p scope))

end Reader

/-! ## texts -/

def Ipv4Addr.toText (x : Ipv4Addr) : List Char :=
  Nat.toDigits 10 x.a ++ '.' :: (Nat.toDigits 10 x.b ++ '.' :: (Nat.toDigits 10 x.c ++ '.' :: Nat.toDigits 10 x.d))

namespace Ipv6Addr

/-- the place and the length of the first of the longest runs of zeros -/
def zeros (x : Ipv6Addr) : Nat × Nat :=
  let step := fun (state : Nat × (Nat × Nat) × (Nat × Nat)) (segment : Fin 65536) =>
    let (i, longest, current) := state
    if segment = 0 then
      let current := if current.2 = 0 then (i, 1) else (current.1, current.2 + 1)
      (i + 1, if longest.2 < current.2 then current else longest, current)
    else (i + 1, longest, (0, 0))
  (x.segments.foldl step (0, (0, 0), (0, 0))).2.1

def subslice (segments : List (Fin 65536)) : List Char :=
  [':'].intercalate (segments.map fun g => Nat.toDigits 16 g.val)

def toText (x : Ipv6Addr) : List Char :=
  match x.segments with
  | [0, 0, 0, 0, 0, 65535, g, h] =>
    "::ffff:".toList ++
      Ipv4Addr.toText ⟨Fin.ofNat 256 (g.val / 256), Fin.ofNat 256 g, Fin.ofNat 256 (h.val / 256), Fin.ofNat 256 h⟩
  | segments =>
    let (start, len) := x.zeros
    if 1 < len then subslice (segments.take start) ++ ':' :: ':' :: subslice (segments.drop (start + len))
    else subslice segments

end Ipv6Addr

def IpAddr.toText : IpAddr → List Char
  | .v4 a => a.toText
  | .v6 a => a.toText

def SocketAddr.toText : SocketAddr → List Char
  | .v4 a port => a.toText ++ ':' :: Nat.toDigits 10 port
  | .v6 a port scope =>
    '[' :: (a.toText ++ (if scope = 0 then [] else '%' :: Nat.toDigits 10 scope) ++ ']' :: ':' :: Nat.toDigits 10 port)

/-! ## where the readers stop -/

namespace Reader

variable {a : Ipv6Addr} {r : List Char}

section
variable {t : List Char}

theorem isDigit_of_hex {c : Char} (h : isDigit 16 c = false) : isDigit 10 c = false := by
  unfold isDigit digitOf at *
  dsimp only at *
  generalize (if '0' ≤ c ∧ c ≤ '9' then c.toNat - 48 else if 'a' ≤ c ∧ c ≤ 'z' then c.toNat - 87
    else if 'A' ≤ c ∧ c ≤ 'Z' then c.toNat - 55 else 36) = v at *
  by_cases hv : v < 16
  · rw [if_pos hv] at h
    cases h
  · rw [if_neg (by omega)]
    rfl

theorem local_octet (h : ∀ c, t.head? = some c → isDigit 10 c = false) : Local t octet := local_number h

theorem local_ipv4Addr (h : ∀ c, t.head? = some c → isDigit 10 c = false ∧ c ≠ '.') : Local t ipv4Addr := by
  have hoctet := local_octet fun c hc => (h c hc).1
  have hdot : Local t (char '.') := local_char fun hc => (h _ hc).2 rfl
  exact hoctet.andThen fun _ => hdot.andThen fun _ => hoctet.andThen fun _ => hdot.andThen fun _ =>
    hoctet.andThen fun _ => hdot.andThen fun _ => hoctet.andThen fun _ => local_ret _

/-- nothing of an address goes on into the text -/
def Ends (t : List Char) : Prop := ∀ c, t.head? = some c → isDigit 16 c = false ∧ c ≠ '.' ∧ c ≠ ':'

theorem Ends.ipv4 (h : Ends t) : Local t ipv4Addr :=
  local_ipv4Addr fun c hc => ⟨isDigit_of_hex (h c hc).1, (h c hc).2.1⟩

theorem Ends.colon (h : Ends t) : Local t (char ':') := local_char fun hc => (h _ hc).2.2 rfl

theorem Ends.separated {α : Type} (h : Ends t) (first : Bool) {p : Reader α} (hp : Local t p) :
    Local t (separated first p) := by
  cases first with
  | true => exact hp
  | false => exact h.colon.andThen fun _ => hp

theorem Ends.groups (h : Ends t) (first : Bool) (n : Nat) (s : List Char) :
    groups first n (s ++ t) = ((groups first n s).1, (groups first n s).2 ++ t) := by
  induction n generalizing first s with
  | zero => rfl
  | succ n ih =>
    have hfour : (if 0 < n then Reader.separated first ipv4Addr (s ++ t) else none)
        = (if 0 < n then Reader.separated first ipv4Addr s else none).map fun x => (x.1, x.2 ++ t) := by
      split
      · exact h.separated first h.ipv4 s
      · rfl
    have hgroup : Local t group := local_number fun c hc => (h c hc).1
    unfold Reader.groups
    rw [hfour, h.separated first hgroup s]
    cases (if 0 < n then Reader.separated first ipv4Addr s else none) with
    | some x => rfl
    | none =>
      cases Reader.separated first group s with
      | none => rfl
      | some x =>
        show ((x.1 :: (Reader.groups false n (x.2 ++ t)).1.1, _), _) = _
        rw [ih false x.2]

theorem Ends.ipv6 (h : Ends t) : Local t ipv6Addr := by
  intro s
  unfold ipv6Addr
  simp only [h.groups]
  split
  · rfl
  · split
    · rfl
    · refine Local.andThen h.colon (fun _ => h.colon.andThen fun _ => ?_) _
      intro s
      simp only [h.groups]
      rfl

theorem ends_bracket (s : List Char) : Ends (']' :: s) := by
  intro c hc
  cases hc
  decide

end

/-! ### colons -/

theorem leaves_ipv4Addr : Leaves ipv4Addr :=
  leaves_number.andThen fun _ => (leaves_char _).andThen fun _ => leaves_number.andThen fun _ =>
    (leaves_char _).andThen fun _ => leaves_number.andThen fun _ => (leaves_char _).andThen fun _ =>
      leaves_number.andThen fun _ => leaves_ret _

theorem Leaves.count {α : Type} {p : Reader α} (hp : Leaves p) {s r : List Char} {a : α} (h : p s = some (a, r)) :
    r.count ':' ≤ s.count ':' := (hp s a r h).sublist.count_le ':'

/-- each group but the first one takes a colon -/
theorem separated_colons {α : Type} {p : Reader α} (hp : Leaves p) {first : Bool} {s : List Char} {a : α}
    (h : separated first p s = some (a, r)) : r.count ':' + (if first then 0 else 1) ≤ s.count ':' := by
  cases first with
  | true => exact hp.count h
  | false =>
    obtain ⟨x, hx, h⟩ := Option.bind_eq_some_iff.mp h
    rw [char_eq hx, List.count_cons_self]
    exact Nat.succ_le_succ (hp.count h)

theorem groups_colons (first : Bool) (n : Nat) (s : List Char) :
    (groups first n s).2.count ':' ≤ s.count ':' ∧
    (groups first n s).2.count ':' + (groups first n s).1.1.length ≤ s.count ':' + if first then 2 else 1 := by
  induction n generalizing first s with
  | zero => exact ⟨le_rfl, Nat.le_add_right _ _⟩
  | succ n ih =>
    unfold groups
    split
    · next a r h =>
      split at h
      · have hcolons := separated_colons leaves_ipv4Addr h
        show r.count ':' ≤ _ ∧ r.count ':' + 2 ≤ _
        cases first <;> simp only [if_true, Bool.false_eq_true, if_false] at hcolons ⊢ <;> omega
      · cases h
    · split
      · next g r h =>
        have hcolons := separated_colons leaves_number h
        have hrest := ih false r
        show (groups false n r).2.count ':' ≤ _ ∧
          (groups false n r).2.count ':' + ((groups false n r).1.1.length + 1) ≤ _
        cases first <;> simp only [if_true, Bool.false_eq_true, if_false] at hcolons hrest ⊢ <;> omega
      · exact ⟨le_rfl, Nat.le_add_right _ _⟩

theorem ipv6Addr_colons {s : List Char} (h : ipv6Addr s = some (a, r)) : 2 ≤ s.count ':' := by
  obtain ⟨hle, hgroups⟩ := groups_colons true 8 s
  rw [if_pos rfl] at hgroups
  unfold ipv6Addr at h
  dsimp only at h
  split at h
  · omega
  · split at h
    · cases h
    · obtain ⟨x, hx, h⟩ := Option.bind_eq_some_iff.mp h
      obtain ⟨y, hy, _⟩ := Option.bind_eq_some_iff.mp h
      rw [char_eq hx, char_eq hy, List.count_cons_self, List.count_cons_self] at hle
      omega

/-! ### hosts and ports -/

def Digits (p : List Char) : Prop := p ≠ [] ∧ ∀ c ∈ p, isDigit 10 c = true

/-- a host without brackets and colons -/
def Bare (s : List Char) : Prop := ':' ∉ s ∧ s.head? ≠ some '['

section
variable {s p : List Char}

theorem Digits.noColon (h : Digits p) : ':' ∉ p := fun hc => by cases h.2 _ hc

theorem port_digits (h : Digits p) :
    port (':' :: p) = if h : value 10 p < 65536 then some (⟨value 10 p, h⟩, []) else none := by
  unfold port
  rw [andThen_of_some (char_self ':' p), number_all h.1 h.2]

theorem port_of_noColon (h : ':' ∉ s) : port s = none := by
  cases s with
  | nil => rfl
  | cons c s =>
    refine andThen_of_none (char_of_ne (fun hc => ?_) s)
    rw [hc] at h
    exact h List.mem_cons_self

theorem port_colon {x : Fin 65536} (h : port s = some (x, r)) : ':' ∈ s := by
  by_contra hc
  rw [port_of_noColon hc] at h
  cases h

theorem ipv6Addr_none (h : s.count ':' < 2) : ipv6Addr s = none := by
  cases ha : ipv6Addr s with
  | none => rfl
  | some x => exact absurd (ipv6Addr_colons ha) (Nat.not_le.mpr h)

/-- a text without a colon is not an address with a port -/
theorem socketAddr_of_noColon (h : ':' ∉ s) : socketAddr.all s = none := by
  have hport : ∀ {r x y}, r <:+ s → port r = some (x, y) → False := fun hr hp => h (hr.subset (port_colon hp))
  cases hs : socketAddr.all s with
  | none => rfl
  | some a =>
    exfalso
    rw [all_eq] at hs
    unfold socketAddr orElse at hs
    split at hs
    · next x hx =>
      obtain ⟨v, hv, hx⟩ := Option.bind_eq_some_iff.mp hx
      obtain ⟨p, hp, _⟩ := Option.bind_eq_some_iff.mp hx
      exact hport (leaves_ipv4Addr s _ _ hv) hp
    · obtain ⟨b, hb, hs⟩ := Option.bind_eq_some_iff.mp hs
      obtain ⟨v, hv, _⟩ := Option.bind_eq_some_iff.mp hs
      have hcolons := ipv6Addr_colons hv
      have hle := (leaves_char _ _ _ _ hb).sublist.count_le ':'
      rw [List.count_eq_zero.mpr h] at hle
      omega

/-- a text with less than two colons is an `Ipv4Addr` or no address -/
theorem ipAddr_of_colons (h : s.count ':' < 2) : ipAddr.all s = (ipv4Addr.all s).map .v4 := by
  unfold ipAddr all orElse map
  cases hs : ipv4Addr s with
  | some x =>
    obtain ⟨a, r⟩ := x
    cases r <;> rfl
  | none =>
    rw [ipv6Addr_none h]
    rfl

theorem ipAddr_bare_port (h : ':' ∉ s) (hp : Digits p) : ipAddr.all (s ++ ':' :: p) = none := by
  have hcount : (s ++ ':' :: p).count ':' < 2 := by
    rw [List.count_append, List.count_cons_self, List.count_eq_zero.mpr h, List.count_eq_zero.mpr hp.noColon]
    decide
  have hlocal : Local (':' :: p) ipv4Addr := local_ipv4Addr fun c hc => by
    cases hc
    decide
  rw [ipAddr_of_colons hcount]
  unfold all
  rw [hlocal]
  cases ipv4Addr s with
  | none => rfl
  | some x =>
    obtain ⟨a, r⟩ := x
    cases r <;> rfl

theorem socketAddr_bare_port (h : Bare s) (hp : Digits p) : socketAddr.all (s ++ ':' :: p) =
    (ipv4Addr.all s).bind fun a => if h : value 10 p < 65536 then some (.v4 a ⟨value 10 p, h⟩) else none := by
  have hlocal : Local (':' :: p) ipv4Addr := local_ipv4Addr fun c hc => by
    cases hc
    decide
  have hbracket : char '[' (s ++ ':' :: p) = none := by
    cases s with
    | nil => rfl
    | cons c s => exact char_of_ne (fun hc => h.2 (congrArg some hc)) _
  have hfour : socketAddr (s ++ ':' :: p) =
      (ipv4Addr.andThen fun a => port.andThen fun p => ret (.v4 a p)) (s ++ ':' :: p) :=
    orElse_none (andThen_of_none hbracket)
  cases hs : ipv4Addr s with
  | none =>
    have hnone : ipv4Addr (s ++ ':' :: p) = none := by rw [hlocal, hs, Option.map_none]
    rw [all_of_none hs, Option.bind_none, all_of_none (hfour.trans (andThen_of_none hnone))]
  | some x =>
    obtain ⟨a, r⟩ := x
    have hsome : ipv4Addr (s ++ ':' :: p) = some (a, r ++ ':' :: p) := by rw [hlocal, hs, Option.map_some]
    have hport := hfour.trans (andThen_of_some hsome)
    cases r with
    | nil =>
      rw [all_eq.mpr hs, Option.bind_some]
      by_cases hlt : value 10 p < 65536
      · have hp' := (port_digits hp).trans (dif_pos hlt)
        rw [dif_pos hlt, all_eq.mpr (hport.trans (andThen_of_some hp'))]
      · have hp' := (port_digits hp).trans (dif_neg hlt)
        rw [dif_neg hlt, all_of_none (hport.trans (andThen_of_none hp'))]
    | cons c r =>
      -- what the host leaves does not begin with a colon
      have hc : c ≠ ':' := fun hc => h.1 ((leaves_ipv4Addr s a _ hs).subset (hc ▸ List.mem_cons_self))
      have hnone : port (c :: r ++ ':' :: p) = none := andThen_of_none (char_of_ne hc _)
      rw [all_of_rest hs, Option.bind_none, all_of_none (hport.trans (andThen_of_none hnone))]

/-- brackets, and a port or not -/
theorem socketAddr_bracketed (h : ipv6Addr.all s = some a) (t : List Char) :
    socketAddr ('[' :: (s ++ ']' :: t)) = (port.andThen fun p => ret (.v6 a p 0)) t := by
  have hfour : ipv4Addr ('[' :: (s ++ ']' :: t)) = none := andThen_of_none (number_of_head rfl)
  have hsix : ipv6Addr (s ++ ']' :: t) = some (a, ']' :: t) := by
    rw [(ends_bracket t).ipv6, all_eq.mp h]
    rfl
  have hscope : (scopeId.orElse (ret 0)) (']' :: t) = some (0, ']' :: t) := rfl
  unfold socketAddr
  rw [orElse_of_none (andThen_of_none hfour), andThen_of_some (char_self _ _), andThen_of_some hsix, andThen_of_some hscope,
    andThen_of_some (char_self _ _)]

theorem socketAddr_bracketed_port (h : ipv6Addr.all s = some a) (hp : Digits p) :
    socketAddr.all ('[' :: (s ++ ']' :: ':' :: p)) =
      if h : value 10 p < 65536 then some (.v6 a ⟨value 10 p, h⟩ 0) else none := by
  have hsocket := socketAddr_bracketed h (':' :: p)
  by_cases hlt : value 10 p < 65536
  · have hport := (port_digits hp).trans (dif_pos hlt)
    rw [dif_pos hlt, all_eq.mpr (hsocket.trans (andThen_of_some hport))]
  · have hport := (port_digits hp).trans (dif_neg hlt)
    rw [dif_neg hlt, all_of_none (hsocket.trans (andThen_of_none hport))]

theorem socketAddr_bracketed_bare (h : ipv6Addr.all s = some a) :
    socketAddr.all ('[' :: (s ++ [']'])) = none :=
  all_of_none ((socketAddr_bracketed h []).trans (andThen_of_none rfl))

theorem ipAddr_bracketed (s : List Char) : ipAddr.all ('[' :: s) = none := by
  have hfour : ipv4Addr ('[' :: s) = none := andThen_of_none (number_of_head rfl)
  have hgroups : groups true 8 ('[' :: s) = (([], false), '[' :: s) := by
    have hgroup : group ('[' :: s) = none := number_of_head rfl
    unfold groups separated
    simp only [if_true, hfour, hgroup]
    rfl
  have hsix : ipv6Addr ('[' :: s) = none := by
    unfold ipv6Addr
    simp only [hgroups]
    rfl
  apply all_of_none
  unfold ipAddr orElse map
  rw [hfour, hsix]
  rfl

end

/-! ### what is written is read back -/

theorem octet_toDigits : ∀ n : Fin 256, octet (Nat.toDigits 10 n.val) = some (n, []) := by decide +kernel

theorem ipv4Addr_toText (a : Ipv4Addr) : ipv4Addr.all a.toText = some a := by
  have hoctet : ∀ (n : Fin 256) (t : List Char), octet (Nat.toDigits 10 n.val ++ '.' :: t) = some (n, '.' :: t) := by
    intro n t
    rw [local_octet fun c hc => by cases hc; rfl, octet_toDigits]
    rfl
  rw [all_eq]
  unfold Ipv4Addr.toText ipv4Addr
  rw [andThen_of_some (hoctet _ _), andThen_of_some (char_self _ _), andThen_of_some (hoctet _ _),
    andThen_of_some (char_self _ _), andThen_of_some (hoctet _ _), andThen_of_some (char_self _ _),
    andThen_of_some (octet_toDigits _)]
  rfl

end Reader

end Kv
