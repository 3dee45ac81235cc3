import Mathlib.Data.List.Lookmap
import Mathlib.Data.UInt

/-!
# The handshake

`check_auth` runs before any frame is exchanged.  A header value is a string of bytes; it
is text only if all of them are visible.
-/

namespace Geiger

/-- Names are in lower case, as the HTTP library keeps them. -/
structure Headers where
  entries : List (String × List UInt8)

/-- The first value under this name. -/
def Headers.get (headers : Headers) (name : String) : Option (List UInt8) :=
  headers.entries.lookup name

namespace HeaderValue

def isVisibleAscii (b : UInt8) : Bool := 32 ≤ b && b < 127 || b = 9

def toStr (value : List UInt8) : Option String :=
  if value.all isVisibleAscii then some (String.ofList (value.map fun b ↦ Char.ofNat b.toNat))
  else none

end HeaderValue

def stripPrefix (start s : String) : Option String :=
  if start.toList <+: s.toList then some (String.ofList (s.toList.drop start.toList.length))
  else none

/-- The field `auth_token` of the configuration: an empty variable is no token. -/
def authToken (var : String → Option String) : Option String :=
  (var "GEIGER_AUTH_TOKEN").filter fun s ↦ !s.isEmpty

structure ErrorResponse where
  status : ℕ
  body : String
deriving DecidableEq

/-- Without a token nothing is asked for. -/
def checkAuth (headers : Headers) (authToken : Option String) : Except ErrorResponse Unit :=
  match authToken with
  | none => .ok ()
  | some expected =>
    let provided := ((headers.get "authorization").bind HeaderValue.toStr).bind
      (stripPrefix "Bearer ")
    if provided = some expected then .ok ()
    else .error {
      status := if provided.isNone then 401 else 403
      body := if provided.isNone then "missing bearer token" else "invalid bearer token" }

/-- The first authorization header spells the token out, in visible ASCII. -/
def Headers.Bears (headers : Headers) (token : String) : Prop :=
  ∃ value, headers.get "authorization" = some value ∧ value.all HeaderValue.isVisibleAscii ∧
    value.map (fun b ↦ Char.ofNat b.toNat) = "Bearer ".toList ++ token.toList

theorem checkAuth_eq_ok_iff {headers : Headers} {expected : String} :
    checkAuth headers (some expected) = .ok () ↔ headers.Bears expected := by
  have hprovided : checkAuth headers (some expected) = .ok () ↔
      ((headers.get "authorization").bind HeaderValue.toStr).bind (stripPrefix "Bearer ") =
        some expected := by
    simp only [checkAuth]
    split
    · simp [*]
    · simp [*]
  rw [hprovided]
  constructor
  · intro h
    obtain ⟨text, htext, hstrip⟩ := Option.bind_eq_some_iff.mp h
    obtain ⟨value, hvalue, htext⟩ := Option.bind_eq_some_iff.mp htext
    simp only [HeaderValue.toStr, Option.ite_none_right_eq_some, Option.some.injEq] at htext
    obtain ⟨hvisible, rfl⟩ := htext
    simp only [stripPrefix, Option.ite_none_right_eq_some, Option.some.injEq,
      String.toList_ofList] at hstrip
    obtain ⟨⟨rest, hrest⟩, rfl⟩ := hstrip
    refine ⟨value, hvalue, hvisible, ?_⟩
    rw [← hrest, List.drop_left]
    exact congrArg _ String.toList_ofList.symm
  · rintro ⟨value, hvalue, hvisible, hspelled⟩
    simp only [hvalue, Option.bind_some, HeaderValue.toStr, if_pos hvisible, stripPrefix, hspelled,
      String.toList_ofList, List.prefix_append, if_true, List.drop_left, String.ofList_toList]

end Geiger
