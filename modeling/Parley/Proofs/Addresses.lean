import Mathlib.Data.List.Infix
import Mathlib.Data.List.TakeWhile
import Parley.Proofs.Cuts
import Parley.Url

/-!
Which texts are addresses, and what they are taken for.

* `Bytes.splitFirst?_mark`: a text is cut at its first mark;
* `Url.Address`: an address as it is written, its text and what it stands for;
* `Url.parseAuthority_eq_ok`: host and port;
* `Url.parse_text`: the text of an address is read as what the address stands for;
* `Url.parse_iff_address`: no other text is read, and what is written out is given back.
-/
namespace Parley

namespace Bytes

variable {head rest : Bytes} {b : UInt8}

/-- No end of the mark is a beginning of it, so a mark that begins before another one ends before
that. -/
theorem mark_inside (h : ascii "://" <+: b :: head ++ (ascii "://" ++ rest)) :
    ascii "://" <:+: b :: head := by
  have mark : ascii "://" = [0x3A, 0x2F, 0x2F] := rfl
  rw [mark] at h ⊢
  obtain ⟨after, same⟩ := h
  rcases head with _ | ⟨c, _ | ⟨d, head⟩⟩
  · simp at same
  · simp at same
  · simp only [List.cons_append, List.nil_append, List.cons.injEq] at same
    obtain ⟨rfl, rfl, rfl, -⟩ := same
    exact (List.prefix_append [0x3A, 0x2F, 0x2F] head).isInfix

theorem splitFirst?_mark (free : ¬ ascii "://" <:+: head) (rest : Bytes) :
    splitFirst? (ascii "://") (head ++ (ascii "://" ++ rest)) = some (head, rest) := by
  induction head with
  | nil => rfl
  | cons b head ih =>
    have first : ¬ (ascii "://").isPrefixOf (b :: (head ++ (ascii "://" ++ rest))) := by
      rw [List.isPrefixOf_iff_prefix]
      exact fun begins => free (mark_inside begins)
    have later := ih fun inside => free (List.infix_cons inside)
    rw [List.cons_append, splitFirst?, after?_eq, if_neg first, later]
    rfl

end Bytes

namespace Url

/-- An address as it is written: a scheme, a host, possibly a port, and a target, which may be left
out. A host that no port follows has no colon; one that a port follows may have some. -/
structure Address where
  scheme : Bytes
  host : Bytes
  port : Option Bytes
  target : Bytes
  scheme_ne : scheme ≠ []
  scheme_free : ¬ ascii "://" <:+: scheme
  host_ne : host ≠ []
  host_free : byte '/' ∉ host
  host_plain : port = none → byte ':' ∉ host
  port_ne : ∀ digits ∈ port, digits ≠ []
  port_digits : ∀ digits ∈ port, ∀ b ∈ digits, Bytes.isDigit b
  target_starts : target = [] ∨ ∃ path, target = byte '/' :: path

namespace Address

variable (a : Address)

def authority : Bytes :=
  match a.port with
  | none => a.host
  | some digits => a.host ++ byte ':' :: digits

def text : Bytes := a.scheme ++ (ascii "://" ++ (a.authority ++ a.target))

/-- What it stands for. Letters of the scheme count as small ones, and a target that was left out is
the root. -/
def url : Url where
  scheme := a.scheme.lower
  host := a.host
  port := a.port.getD (if a.scheme.lower = ascii "https" then ascii "443" else ascii "80")
  target := if a.target = [] then [byte '/'] else a.target

end Address

theorem not_mem_digits {b : UInt8} (other : Bytes.isDigit b = false) {digits : Bytes}
    (h : ∀ b ∈ digits, Bytes.isDigit b) : b ∉ digits := by
  intro member
  rw [h b member] at other
  cases other

/-- The port is what follows the last colon. -/
theorem parseAuthority_eq_ok {scheme authority host port : Bytes} :
    parseAuthority scheme authority = .ok (host, port) ↔
      (byte ':' ∉ authority ∧ host = authority ∧ port = defaultPort scheme) ∨
      (authority = host ++ byte ':' :: port ∧ port ≠ [] ∧ ∀ b ∈ port, Bytes.isDigit b) := by
  constructor
  · intro h
    rw [parseAuthority] at h
    split at h
    · rename_i front digits found
      split at h
      · rename_i numeric
        cases h
        obtain ⟨authority_eq, -⟩ := Bytes.splitLast?_divides found
        exact .inr ⟨authority_eq, numeric.1, List.all_eq_true.mp numeric.2⟩
      · cases h
    · rename_i none
      cases h
      exact .inl ⟨Bytes.splitLast?_eq_none_iff.mp none, rfl, rfl⟩
  · rintro (⟨plain, rfl, rfl⟩ | ⟨rfl, ne, digits⟩)
    · rw [parseAuthority, Bytes.splitLast?_eq_none_iff.mpr plain]
    · rw [parseAuthority, Bytes.splitLast?_append host (not_mem_digits (by decide) digits)]
      exact if_pos ⟨ne, List.all_eq_true.mpr digits⟩

theorem splitTarget_divides (s : Bytes) :
    s = (splitTarget s).1 ++ (splitTarget s).2 ∧ byte '/' ∉ (splitTarget s).1 ∧
      ((splitTarget s).2 = [] ∨ ∃ path, (splitTarget s).2 = byte '/' :: path) := by
  rw [splitTarget, List.span_eq_takeWhile_dropWhile]
  refine ⟨List.takeWhile_append_dropWhile.symm, ?_, ?_⟩
  · intro member
    simpa using List.mem_takeWhile_imp member
  · cases rest : s.dropWhile (· ≠ byte '/') with
    | nil => exact .inl rfl
    | cons b path =>
      have some : s.dropWhile (· ≠ byte '/') ≠ [] := by
        rw [rest]
        exact List.cons_ne_nil b path
      have stops := List.head_dropWhile_not (· ≠ byte '/') some
      simp only [rest, List.head_cons] at stops
      exact .inr ⟨path, by simpa using stops⟩

theorem splitTarget_append {authority target : Bytes} (free : byte '/' ∉ authority)
    (starts : target = [] ∨ ∃ path, target = byte '/' :: path) :
    splitTarget (authority ++ target) = (authority, target) := by
  apply Bytes.span_append
  · intro b member
    have other : b ≠ byte '/' := fun same => free (same ▸ member)
    simpa using other
  · obtain rfl | ⟨path, rfl⟩ := starts
    · simp
    · simp

/-- How a text that has a mark after its scheme is read. -/
theorem parse_of_split {s scheme rest : Bytes}
    (found : Bytes.splitFirst? (ascii "://") s = some (scheme, rest)) (ne : scheme ≠ []) :
    parse s = (parseAuthority scheme.lower (splitTarget rest).1).bind fun r =>
      if r.1 = [] then .error .emptyHost else .ok {
        scheme := scheme.lower, host := r.1, port := r.2
        target := if (splitTarget rest).2 = [] then [byte '/'] else (splitTarget rest).2 } := by
  unfold parse
  rw [found]
  cases scheme with
  | nil => exact absurd rfl ne
  | cons b scheme =>
    simp only
    cases parseAuthority (Bytes.lower (b :: scheme)) (splitTarget rest).1 with
    | error fault => rfl
    | ok r =>
      by_cases empty : r.1 = []
      · simp [empty, bind, Except.bind, throw, throwThe, MonadExceptOf.throw]
      · simp [empty, bind, Except.bind, pure, Except.pure]

theorem Address.slash_notMem_authority (a : Address) : byte '/' ∉ a.authority := by
  rw [authority]
  cases port : a.port with
  | none => exact a.host_free
  | some digits =>
    simp only [List.mem_append, List.mem_cons, not_or]
    exact ⟨a.host_free, by decide, not_mem_digits (by decide) (a.port_digits digits port)⟩

theorem Address.parseAuthority_authority (a : Address) :
    parseAuthority a.scheme.lower a.authority = .ok (a.host, a.url.port) := by
  rw [parseAuthority_eq_ok, authority, url]
  cases port : a.port with
  | none => exact .inl ⟨a.host_plain port, rfl, rfl⟩
  | some digits => exact .inr ⟨rfl, a.port_ne digits port, a.port_digits digits port⟩

/-- The text of an address is read as what the address stands for. -/
theorem parse_text (a : Address) : parse a.text = .ok a.url := by
  have found := Bytes.splitFirst?_mark a.scheme_free (a.authority ++ a.target)
  rw [Address.text, parse_of_split found a.scheme_ne,
    splitTarget_append a.slash_notMem_authority a.target_starts, a.parseAuthority_authority]
  simp only [Except.bind, if_neg a.host_ne]
  rfl

/-- What a text has that is read. -/
theorem parse_eq_ok {s : Bytes} {u : Url} (h : parse s = .ok u) :
    ∃ scheme rest host port, Bytes.splitFirst? (ascii "://") s = some (scheme, rest) ∧
      scheme ≠ [] ∧ parseAuthority scheme.lower (splitTarget rest).1 = .ok (host, port) ∧
      host ≠ [] ∧ u = {
        scheme := scheme.lower, host, port
        target := if (splitTarget rest).2 = [] then [byte '/'] else (splitTarget rest).2 } := by
  cases found : Bytes.splitFirst? (ascii "://") s with
  | none =>
    rw [parse, found] at h
    cases h
  | some divided =>
    obtain ⟨scheme, rest⟩ := divided
    by_cases scheme_ne : scheme = []
    · rw [parse, found, scheme_ne] at h
      cases h
    · rw [parse_of_split found scheme_ne] at h
      cases authority : parseAuthority scheme.lower (splitTarget rest).1 with
      | error fault =>
        rw [authority] at h
        cases h
      | ok r =>
        rw [authority, Except.bind] at h
        by_cases host_ne : r.1 = []
        · simp only [if_pos host_ne] at h
          cases h
        · simp only [if_neg host_ne] at h
          cases h
          exact ⟨scheme, rest, r.1, r.2, rfl, scheme_ne, authority, host_ne, rfl⟩

/-- Every text that is read is that of an address. -/
theorem exists_address {s : Bytes} {u : Url} (h : parse s = .ok u) :
    ∃ a : Address, a.text = s ∧ a.url = u := by
  obtain ⟨scheme, rest, host, port, found, scheme_ne, authority, host_ne, rfl⟩ := parse_eq_ok h
  obtain ⟨s_eq, scheme_free⟩ := Bytes.splitFirst?_divides (by decide) found
  obtain ⟨rest_eq, free, starts⟩ := splitTarget_divides rest
  rcases parseAuthority_eq_ok.mp authority with
    ⟨plain, host_eq, rfl⟩ | ⟨authority_eq, port_ne, digits⟩
  · let a : Address := {
      scheme, host, port := none, target := (splitTarget rest).2, scheme_ne, scheme_free, host_ne
      host_free := host_eq ▸ free
      host_plain := fun _ => host_eq ▸ plain
      port_ne := by simp
      port_digits := by simp
      target_starts := starts }
    refine ⟨a, ?_, rfl⟩
    rw [s_eq, rest_eq, ← host_eq]
    rfl
  · rw [authority_eq, List.mem_append, not_or] at free
    let a : Address := {
      scheme, host, port := some port, target := (splitTarget rest).2, scheme_ne, scheme_free
      host_ne, host_free := free.1
      host_plain := by simp
      port_ne := by simpa using port_ne
      port_digits := by simpa using digits
      target_starts := starts }
    refine ⟨a, ?_, rfl⟩
    rw [s_eq, rest_eq, authority_eq]
    rfl

/-- A text is read exactly if it is that of an address, as what the address stands for. So whatever
is written with small letters and a port is given back as it was; a target that was left out is
given back as the root. -/
theorem parse_iff_address :
    (∀ s u, parse s = .ok u ↔ ∃ a : Address, a.text = s ∧ a.url = u) ∧
    ∀ scheme host port target : Bytes, scheme ≠ [] → scheme.lower = scheme →
      ¬ ascii "://" <:+: scheme → host ≠ [] → byte '/' ∉ host → port ≠ [] →
      (∀ b ∈ port, Bytes.isDigit b) → (target = [] ∨ ∃ path, target = byte '/' :: path) →
      parse (scheme ++ ascii "://" ++ host ++ ascii ":" ++ port ++ target) = .ok {
        scheme, host, port, target := if target = [] then [byte '/'] else target } := by
  constructor
  · intro s u
    constructor
    · exact exists_address
    · rintro ⟨a, rfl, rfl⟩
      exact parse_text a
  · intro scheme host port target scheme_ne lower scheme_free host_ne host_free port_ne digits
      starts
    let a : Address := {
      scheme, host, port := some port, target, scheme_ne, scheme_free, host_ne, host_free
      host_plain := by simp
      port_ne := by simpa using port_ne
      port_digits := by simpa using digits
      target_starts := starts }
    have text : scheme ++ ascii "://" ++ host ++ ascii ":" ++ port ++ target = a.text := by
      simp [a, Address.text, Address.authority, ascii]
    have url : a.url = {
        scheme, host, port, target := if target = [] then [byte '/'] else target } := by
      simp [a, Address.url, lower]
    rw [text, parse_text, url]

/-- A scheme that ends in part of a mark, a host that has colons, and a target that has a mark. -/
theorem parse_iff_address_colons :
    let scheme := ascii "ht:/"
    let host := ascii "a:b::c"
    let port := ascii "0080"
    let target := ascii "/d://e:f"
    (scheme ≠ [] ∧ scheme.lower = scheme ∧ ¬ ascii "://" <:+: scheme) ∧
      (host ≠ [] ∧ byte '/' ∉ host) ∧ (port ≠ [] ∧ ∀ b ∈ port, Bytes.isDigit b) ∧
      (target = [] ∨ ∃ path, target = byte '/' :: path) ∧
      parse (ascii "ht:/://a:b::c:0080/d://e:f") = .ok { scheme, host, port, target } := by
  intro scheme host port target
  have named : scheme ≠ [] ∧ scheme.lower = scheme ∧ ¬ ascii "://" <:+: scheme := by decide
  have hosted : host ≠ [] ∧ byte '/' ∉ host := by decide
  have digits : port ≠ [] ∧ ∀ b ∈ port, Bytes.isDigit b :=
    ⟨by decide, List.all_eq_true.mp (by decide)⟩
  have starts : target = [] ∨ ∃ path, target = byte '/' :: path := .inr ⟨ascii "d://e:f", rfl⟩
  have given := parse_iff_address.2 scheme host port target named.1 named.2.1 named.2.2 hosted.1
    hosted.2 digits.1 digits.2 starts
  exact ⟨named, hosted, digits, starts, given⟩

end Url

end Parley
