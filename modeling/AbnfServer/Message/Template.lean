-- Message templates. `{0}`, `{1}` and so on stand for arguments. They are
-- filled in one pass from left to right, so what an argument says is never
-- read as a placeholder.
import AbnfServer.Text.Basic

namespace AbnfServer.Template

/-- The number that a row of decimal digits denotes. -/
def number (digits : Text) : Nat := digits.foldl (fun n d => n * 10 + (d.toNat - '0'.toNat)) 0

/-- Reads the rest of a placeholder, its opening brace aside: the number in
it, and the text behind it. Its digits are those of ASCII, and a number beyond
64 bits counts no arguments. -/
def placeholder? (t : Text) : Option (Nat × Text) :=
  match t.takeWhile Char.isDigit, t.dropWhile Char.isDigit with
  | d :: ds, '\x7d' :: rest =>
    if number (d :: ds) < UInt64.size then some (number (d :: ds), rest) else none
  | _, _ => none

theorem length_placeholder? {t rest : Text} {n : Nat} (h : placeholder? t = some (n, rest)) :
    rest.length < t.length := by
  unfold placeholder? at h
  split at h
  · next hd =>
    obtain ⟨_, hrest⟩ := Option.ite_none_right_eq_some.mp h
    have := (List.dropWhile_sublist Char.isDigit (l := t)).length_le
    rw [hd] at this
    simp only [Option.some.injEq, Prod.mk.injEq] at hrest
    simp only [List.length_cons, hrest.2] at this
    omega
  · simp at h

/-- Fills a template. A placeholder with no argument stays as it is. -/
def fill (args : List Text) : Text → Text
  | [] => []
  | c :: t =>
    if c = '\x7b' then
      match h : placeholder? t with
      | none => c :: fill args t
      | some (n, rest) =>
        match args[n]? with
        | none => c :: fill args t
        | some arg =>
          have := length_placeholder? h
          arg ++ fill args rest
    else c :: fill args t
termination_by t => t.length

end AbnfServer.Template
