import Grapevine.Lib.Best

/-!
# Proxies by domain

A proxy of the configuration has a list of patterns for the domains that it is used for, and a list
of patterns for the domains that it is not used for.  The more specific pattern decides
(`PartialProxyConfig.forUrl`).

* `WildCardedDomain`   a pattern: `wildCard`, or `*` before a name, or a name;
* `rank`   how specific a pattern is, among the patterns that match one domain: there
  `moreSpecificThan` is the order of the ranks (`ranked`);
* `RespectsLabels`   what the pattern of the text `*.d` should match.

Main results: `forUrl_rule`, the proxy is used exactly if some pattern of the first list is more
specific than every pattern of the second one, whatever the order of the lists.
`wildCarded_respects_iff`: the pattern for `*.d` does not look at the dot, so that it also matches
the domains that end in `d` in the middle of a label.
-/

namespace Grapevine
open Kv

namespace Proxy

abbrev Name := List Char

inductive WildCardedDomain where
  | wildCard
  | wildCarded (d : Name)
  | exact (d : Name)
deriving DecidableEq

namespace WildCardedDomain

/-! ## patterns -/

def «matches» : WildCardedDomain → Name → Bool
  | wildCard, _ => true
  | wildCarded d, domain => d.isSuffixOf domain
  | exact d, domain => domain = d

def moreSpecificThan : WildCardedDomain → WildCardedDomain → Bool
  | wildCard, wildCard => false
  | _, wildCard => true
  | exact a, wildCarded b => (wildCarded b).matches a
  | wildCarded a, wildCarded b => a ≠ b && b.isSuffixOf a
  | _, _ => false

def fromStr : Name → WildCardedDomain
  | '*' :: '.' :: x => wildCarded x
  | s => if s = ['*'] then wildCarded [] else exact s

def rank : WildCardedDomain → Nat
  | wildCard => 0
  | wildCarded d => d.length + 1
  | exact d => d.length + 2

theorem matches_wildCarded {d x : Name} : (wildCarded d).matches x = true ↔ d <:+ x := List.isSuffixOf_iff_suffix

theorem matches_exact {d x : Name} : (exact d).matches x = true ↔ x = d := decide_eq_true_iff

/-- of two ends of one name, one is an end of the other: the longer one is the more specific one -/
theorem ranked (domain : Name) : Ranked (fun p => p.matches domain) moreSpecificThan rank := by
  intro p q hp hq
  cases p with
  | wildCard =>
    cases q <;> exact iff_of_false (by exact Bool.false_ne_true) (Nat.not_lt_zero _)
  | wildCarded a =>
    have ha := matches_wildCarded.mp hp
    cases q with
    | wildCard => exact iff_of_true rfl (Nat.succ_pos _)
    | wildCarded b =>
      have hb := matches_wildCarded.mp hq
      show (decide (a ≠ b) && b.isSuffixOf a) = true ↔ b.length + 1 < a.length + 1
      rw [Bool.and_eq_true, decide_eq_true_iff, List.isSuffixOf_iff_suffix]
      refine ⟨fun h => ?_, fun h => ?_⟩
      · have hle := h.2.length_le
        have hne : b.length ≠ a.length := fun heq => h.1 (h.2.eq_of_length heq).symm
        omega
      · refine ⟨fun heq => ?_, List.suffix_of_suffix_length_le hb ha (by omega)⟩
        rw [heq] at h
        omega
    | exact b =>
      have hlen := ha.length_le
      rw [matches_exact.mp hq] at hlen
      refine iff_of_false (by exact Bool.false_ne_true) ?_
      show ¬ b.length + 2 < a.length + 1
      omega
  | exact a =>
    have ha := matches_exact.mp hp
    cases q with
    | wildCard => exact iff_of_true rfl (Nat.succ_pos _)
    | wildCarded b =>
      have hb := matches_wildCarded.mp hq
      rw [ha] at hb
      have hlen := hb.length_le
      refine iff_of_true (matches_wildCarded.mpr hb) ?_
      show b.length + 1 < a.length + 2
      omega
    | exact b =>
      have hb := matches_exact.mp hq
      refine iff_of_false (by exact Bool.false_ne_true) ?_
      show ¬ b.length + 2 < a.length + 2
      rw [← ha, ← hb]
      exact Nat.lt_irrefl _

/-- a text never stands for `wildCard`; the text `*` is the end of every name -/
theorem fromStr_ne_wildCard (s : Name) : fromStr s ≠ wildCard := by
  unfold fromStr
  split
  · exact nofun
  · split <;> exact nofun

/-- nothing that a text stands for is less specific than `*` -/
theorem moreSpecificThan_star {p : WildCardedDomain} (hp : p ≠ wildCard) :
    wildCard.moreSpecificThan p = false ∧ (fromStr ['*']).moreSpecificThan p = false := by
  cases p with
  | wildCard => exact absurd rfl hp
  | wildCarded d =>
    refine ⟨rfl, ?_⟩
    show (decide ([] ≠ d) && d.isSuffixOf []) = false
    cases d with
    | nil => rfl
    | cons c d => simp
  | exact d => exact ⟨rfl, rfl⟩

end WildCardedDomain

/-! ## the choice -/

/-- the loop over a list: the most specific reason, if one is known before -/
def mostSpecific (domain : Name) (start : Option WildCardedDomain) (l : List WildCardedDomain) :
    Option WildCardedDomain :=
  scanBest (fun p => p.matches domain) WildCardedDomain.moreSpecificThan start l

theorem mostSpecific_insert {p : WildCardedDomain} {domain : Name} (h : p.matches domain = false)
    (start : Option WildCardedDomain) (front back : List WildCardedDomain) :
    mostSpecific domain start (front ++ p :: back) = mostSpecific domain start (front ++ back) := by
  unfold mostSpecific
  apply scanBest_insert
  exact h

section
-- `reqwest::Url` and `Url::domain`
variable {Url : Type} (domainOf : Url → Option Name)

structure PartialProxyConfig (Url : Type) where
  url : Url
  includes : List WildCardedDomain
  excludes : List WildCardedDomain

def PartialProxyConfig.forUrl (proxy : PartialProxyConfig Url) (url : Url) : Option Url := do
  let domain ← domainOf url
  let start := if proxy.includes.isEmpty then some .wildCard else none
  let includedBecause := mostSpecific domain start proxy.includes
  let excludedBecause := mostSpecific domain none proxy.excludes
  match includedBecause, excludedBecause with
  | some a, some b => if a.moreSpecificThan b then some proxy.url else none
  | some _, none => some proxy.url
  | _, _ => none

/-- the patterns that a proxy is used for -/
def PartialProxyConfig.included (proxy : PartialProxyConfig Url) : List WildCardedDomain :=
  if proxy.includes = [] then [.wildCard] else proxy.includes

variable {domainOf} {proxy : PartialProxyConfig Url} {url : Url}

theorem forUrl_eq : proxy.forUrl domainOf url = (domainOf url).bind fun domain =>
    if beats WildCardedDomain.moreSpecificThan (mostSpecific domain none proxy.included)
      (mostSpecific domain none proxy.excludes) then some proxy.url
    else none := by
  unfold PartialProxyConfig.forUrl
  show Option.bind _ _ = _
  congr 1
  funext domain
  have hstart : mostSpecific domain (if proxy.includes.isEmpty then some .wildCard else none) proxy.includes =
      mostSpecific domain none proxy.included := by
    unfold PartialProxyConfig.included
    cases proxy.includes with
    | nil => rfl
    | cons p ps => rfl
  simp only [hstart]
  cases mostSpecific domain none proxy.included with
  | none => rfl
  | some a =>
    cases mostSpecific domain none proxy.excludes with
    | none => rfl
    | some b => rfl

theorem forUrl_eq_some {target : Url} : proxy.forUrl domainOf url = some target ↔ target = proxy.url ∧
    ∃ domain, domainOf url = some domain ∧ ∃ p ∈ proxy.included, p.matches domain = true ∧
      ∀ q ∈ proxy.excludes, q.matches domain = true → p.moreSpecificThan q = true := by
  rw [forUrl_eq, Option.bind_eq_some_iff]
  refine ⟨fun h => ?_, fun h => ?_⟩
  · obtain ⟨domain, hdomain, h⟩ := h
    obtain ⟨hbeats, htarget⟩ := Option.ite_none_right_eq_some.mp h
    exact ⟨(Option.some.inj htarget).symm, domain, hdomain,
      (scanBest_beats_iff (WildCardedDomain.ranked domain) _ _).mp hbeats⟩
  · obtain ⟨rfl, domain, hdomain, h⟩ := h
    refine ⟨domain, hdomain, ?_⟩
    exact if_pos ((scanBest_beats_iff (WildCardedDomain.ranked domain) _ _).mpr h)

/-- two proxies with the same target decide alike if their patterns choose alike -/
theorem forUrl_congr {other : PartialProxyConfig Url} (hurl : proxy.url = other.url)
    (hsame : ∀ domain, domainOf url = some domain →
      ((∃ p ∈ proxy.included, p.matches domain = true ∧
        ∀ q ∈ proxy.excludes, q.matches domain = true → p.moreSpecificThan q = true) ↔
      ∃ p ∈ other.included, p.matches domain = true ∧
        ∀ q ∈ other.excludes, q.matches domain = true → p.moreSpecificThan q = true)) :
    proxy.forUrl domainOf url = other.forUrl domainOf url := by
  apply Option.ext
  intro target
  rw [forUrl_eq_some, forUrl_eq_some, hurl]
  refine and_congr_right fun _ => exists_congr fun domain => ?_
  exact and_congr_right fun hdomain => hsame domain hdomain

/-- only which patterns are in the lists matters -/
theorem forUrl_of_mem_iff {other : PartialProxyConfig Url} (hurl : proxy.url = other.url)
    (hin : ∀ p, p ∈ proxy.includes ↔ p ∈ other.includes) (hex : ∀ p, p ∈ proxy.excludes ↔ p ∈ other.excludes) :
    proxy.forUrl domainOf url = other.forUrl domainOf url := by
  have hempty : proxy.includes = [] ↔ other.includes = [] := by
    rw [List.eq_nil_iff_forall_not_mem, List.eq_nil_iff_forall_not_mem]
    exact forall_congr' fun p => not_congr (hin p)
  have hincluded : ∀ p, p ∈ proxy.included ↔ p ∈ other.included := by
    intro p
    unfold PartialProxyConfig.included
    by_cases h : proxy.includes = []
    · rw [if_pos h, if_pos (hempty.mp h)]
    · rw [if_neg h, if_neg (fun h' => h (hempty.mpr h'))]
      exact hin p
  apply forUrl_congr hurl
  intro domain _
  refine exists_congr fun p => and_congr (hincluded p) (and_congr_right fun _ => ?_)
  exact forall_congr' fun q => imp_congr_left (hex q)

/-- no list of patterns is the list with the text `*`, as long as the other patterns are texts -/
theorem forUrl_star (target : Url) (excludes : List Name) :
    PartialProxyConfig.forUrl domainOf ⟨target, [], excludes.map .fromStr⟩ url =
      PartialProxyConfig.forUrl domainOf ⟨target, [.fromStr ['*']], excludes.map .fromStr⟩ url := by
  refine forUrl_congr rfl fun domain _ => ?_
  show (∃ p ∈ [WildCardedDomain.wildCard], _) ↔ ∃ p ∈ [WildCardedDomain.fromStr ['*']], _
  simp only [List.mem_singleton, exists_eq_left]
  have hstar : (WildCardedDomain.fromStr ['*']).matches domain = true :=
    WildCardedDomain.matches_wildCarded.mpr (List.nil_suffix)
  refine and_congr (iff_of_true rfl hstar) (forall₂_congr fun q hq => forall_congr' fun _ => ?_)
  obtain ⟨s, -, rfl⟩ := List.mem_map.mp hq
  obtain ⟨h1, h2⟩ := WildCardedDomain.moreSpecificThan_star (WildCardedDomain.fromStr_ne_wildCard s)
  rw [h1, h2]

variable (domainOf)

/-- **The choice of a proxy.**  It is used exactly if some pattern that it is used for is more
specific than all the patterns that it is not used for; neither the order nor the repetition of
patterns matters; and an empty list stands for `*`, in each of the two ways to write it. -/
theorem forUrl_rule :
    (∀ (proxy : PartialProxyConfig Url) url, (proxy.forUrl domainOf url = some proxy.url ↔
      ∃ domain, domainOf url = some domain ∧
        ∃ p ∈ (if proxy.includes = [] then [.wildCard] else proxy.includes), p.matches domain = true ∧
          ∀ q ∈ proxy.excludes, q.matches domain = true → p.moreSpecificThan q = true) ∧
      (proxy.forUrl domainOf url = some proxy.url ∨ proxy.forUrl domainOf url = none)) ∧
    (∀ (proxy other : PartialProxyConfig Url) url, proxy.url = other.url →
      (∀ p, p ∈ proxy.includes ↔ p ∈ other.includes) → (∀ p, p ∈ proxy.excludes ↔ p ∈ other.excludes) →
        proxy.forUrl domainOf url = other.forUrl domainOf url) ∧
    (∀ (target : Url) (excludes : List WildCardedDomain) url,
      PartialProxyConfig.forUrl domainOf ⟨target, [], excludes⟩ url =
        PartialProxyConfig.forUrl domainOf ⟨target, [.wildCard], excludes⟩ url) ∧
    ∀ (target : Url) (excludes : List Name) url,
      PartialProxyConfig.forUrl domainOf ⟨target, [], excludes.map .fromStr⟩ url =
        PartialProxyConfig.forUrl domainOf ⟨target, [.fromStr ['*']], excludes.map .fromStr⟩ url := by
  refine ⟨fun proxy url => ⟨?_, ?_⟩, fun proxy other url hurl hin hex => forUrl_of_mem_iff hurl hin hex,
    fun target excludes url => forUrl_congr rfl fun _ _ => Iff.rfl,
    fun target excludes url => forUrl_star target excludes⟩
  · rw [forUrl_eq_some]
    exact and_iff_right rfl
  · cases h : proxy.forUrl domainOf url with
    | none => exact Or.inr rfl
    | some target =>
      rw [(forUrl_eq_some.mp h).1]
      exact Or.inl rfl

/-! ## labels -/

/-- a pattern that the configuration may as well not have, when it comes to this domain -/
structure Ignored (p : WildCardedDomain) (x : Name) : Prop where
  alone : ∀ target excludes url, domainOf url = some x →
    PartialProxyConfig.forUrl domainOf ⟨target, [p], excludes⟩ url = none
  included : ∀ target front back excludes url, domainOf url = some x → front ++ back ≠ [] →
    PartialProxyConfig.forUrl domainOf ⟨target, front ++ p :: back, excludes⟩ url =
      PartialProxyConfig.forUrl domainOf ⟨target, front ++ back, excludes⟩ url
  excluded : ∀ target includes front back url, domainOf url = some x →
    PartialProxyConfig.forUrl domainOf ⟨target, includes, front ++ p :: back⟩ url =
      PartialProxyConfig.forUrl domainOf ⟨target, includes, front ++ back⟩ url

/-- the pattern of the text `*.d` stands for the domains below `d`, and plays no part for others -/
def RespectsLabels (d x : Name) : Prop :=
  ((WildCardedDomain.fromStr ('*' :: '.' :: d)).matches x = true ↔ '.' :: d <:+ x) ∧
    (¬ '.' :: d <:+ x → Ignored domainOf (.fromStr ('*' :: '.' :: d)) x)

variable {domainOf}

theorem ignored_of_not_matches {p : WildCardedDomain} {x : Name} (h : p.matches x = false) :
    Ignored domainOf p x where
  alone := by
    intro target excludes url hx
    rw [Option.eq_none_iff_forall_ne_some]
    intro t ht
    obtain ⟨-, domain, hdomain, q, hq, hmatch, -⟩ := forUrl_eq_some.mp ht
    rw [hx] at hdomain
    cases hdomain
    rw [List.mem_singleton.mp hq, h] at hmatch
    cases hmatch
  included := by
    intro target front back excludes url hx hne
    have hfront : front ++ p :: back ≠ [] := List.append_ne_nil_of_right_ne_nil _ (List.cons_ne_nil p back)
    rw [forUrl_eq, forUrl_eq, hx]
    simp only [PartialProxyConfig.included, if_neg hfront, if_neg hne, Option.bind_some, mostSpecific_insert h]
  excluded := by
    intro target includes front back url hx
    rw [forUrl_eq, forUrl_eq, hx]
    simp only [PartialProxyConfig.included, Option.bind_some, mostSpecific_insert h]

/-- **Wildcards and labels.**  The pattern of `*.d` is right about a domain exactly if the domain does
not end in `d` without a dot before it. -/
theorem wildCarded_respects_iff (d x : Name) :
    RespectsLabels domainOf d x ↔ (d <:+ x → '.' :: d <:+ x) := by
  have hmatches : (WildCardedDomain.fromStr ('*' :: '.' :: d)).matches x = true ↔ d <:+ x :=
    WildCardedDomain.matches_wildCarded
  refine ⟨fun h hsuffix => h.1.mp (hmatches.mpr hsuffix), fun h => ⟨?_, fun hnot => ?_⟩⟩
  · rw [hmatches]
    exact ⟨h, fun hdot => (List.suffix_cons '.' d).trans hdot⟩
  · apply ignored_of_not_matches
    rw [← Bool.not_eq_true, hmatches]
    exact fun hsuffix => hnot (h hsuffix)

/-- a proxy for `*.example.com` is also used for `notexample.com` -/
theorem wildCarded_unrelated :
    ¬ ∀ (domainOf : Name → Option Name) (d x : Name), d ≠ [] → RespectsLabels domainOf d x := by
  intro hall
  have h := (hall some "example.com".toList "notexample.com".toList (by decide)).1.mp (by decide)
  exact absurd h (by decide)

end

end Proxy
end Grapevine
