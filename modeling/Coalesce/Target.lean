import Coalesce.Ident
import Mathlib.Data.List.TakeWhile
import Mathlib.Tactic.IntervalCases

/-! The target argument `user@host[:port]`, from main.c, and the functions of the C
library that it uses. A string is the list of its characters, its closing NUL left out. -/

namespace Coalesce.Target
open Library.CallResult Buffer Ident

def AT : UInt8 := 64
def COLON : UInt8 := 58

/-- The index of the first such character. -/
def strchr (text : List UInt8) (c : UInt8) : Option Nat := text.findIdx? (· = c)

def isSpace (c : UInt8) : Bool := c = 32 ∨ 9 ≤ c ∧ c ≤ 13
def isDigit (c : UInt8) : Bool := 48 ≤ c ∧ c ≤ 57

/-- The number that the digits at the front stand for. -/
def digitsValue (text : List UInt8) : Nat :=
  (text.takeWhile isDigit).foldl (fun n c => 10 * n + (c.toNat - 48)) 0

/-- White space, a sign, digits; whatever follows is not looked at. -/
def signedValue (text : List UInt8) : Int :=
  match text.dropWhile isSpace with
  | [] => 0
  | c :: rest =>
    if c = 45 then -(digitsValue rest : Int)
    else if c = 43 then digitsValue rest
    else digitsValue (c :: rest)

/-- The C standard leaves open what comes of a number that is no `int`: `wide`. -/
def atoi (wide : Int → Int) (text : List UInt8) : Int :=
  let n := signedValue text
  if -2147483648 ≤ n ∧ n ≤ 2147483647 then n else wide n

/-- The number as `%d`, `%u` and `%zu` print it. -/
def decimal (n : Nat) : List UInt8 := (Nat.toDigits 10 n).map fun c => UInt8.ofNat c.toNat

def signedDecimal (n : Int) : List UInt8 := if n < 0 then 45 :: decimal n.natAbs else decimal n.natAbs

/-- The arrays and the port that `parse_target` fills. -/
structure TargetOut where
  user : List UInt8
  host : List UInt8
  port : Int
  deriving DecidableEq, Repr

/-- `memcpy(out, text, len); out[len] = '\0';` -/
def storeText (out text : List UInt8) : List UInt8 := blit out 0 (text ++ [0])

def storeHost (hp : List UInt8) (hlen : Nat) : Call TargetOut Unit := do
  let out ← get
  failIf (hlen = 0 || hlen ≥ out.host.length)
  modify fun t => { t with host := storeText t.host (hp.take hlen) }

/-- The sizes of the arrays are their lengths. -/
def parseTarget (wide : Int → Int) (target : List UInt8) : Call TargetOut Unit := do
  match strchr target AT with
  | none => throw .fail
  | some ulen =>
    let out ← get
    failIf (ulen = 0 || ulen ≥ out.user.length)
    modify fun t => { t with user := storeText t.user (target.take ulen) }
    let hp := target.drop (ulen + 1)
    match strchr hp COLON with
    | some hlen =>
      storeHost hp hlen
      let port := atoi wide (hp.drop (hlen + 1))
      modify fun t => { t with port := port }
      failIf (port ≤ 0 || port > 65535)
    | none =>
      storeHost hp hp.length
      modify fun t => { t with port := 22 }

/-! Numbers and their digits. -/

theorem digitChar_code {d : Nat} (small : d < 10) : UInt8.ofNat (Nat.digitChar d).toNat = UInt8.ofNat (48 + d) := by
  interval_cases d <;> rfl

theorem decimal_step {n : Nat} (large : 10 ≤ n) : decimal n = decimal (n / 10) ++ [UInt8.ofNat (48 + n % 10)] := by
  rw [decimal, Nat.toDigits_of_base_le (by decide) large, List.map_append, List.map_singleton,
    digitChar_code (Nat.mod_lt n (by decide))]
  rfl

theorem decimal_small {n : Nat} (small : n < 10) : decimal n = [UInt8.ofNat (48 + n)] := by
  rw [decimal, Nat.toDigits_of_lt_base small, List.map_singleton, digitChar_code small]

theorem digit_value {d : Nat} (small : d < 10) :
    isDigit (UInt8.ofNat (48 + d)) = true ∧ (UInt8.ofNat (48 + d)).toNat - 48 = d := by
  interval_cases d <;> decide

theorem decimal_digits (n : Nat) : ∀ c ∈ decimal n, isDigit c = true := by
  induction n using Nat.strongRecOn with
  | ind n ih =>
    intro c member
    by_cases small : n < 10
    · rw [decimal_small small, List.mem_singleton] at member
      rw [member]
      exact (digit_value small).1
    · rw [decimal_step (by omega), List.mem_append, List.mem_singleton] at member
      rcases member with front | last
      · exact ih (n / 10) (by omega) c front
      · rw [last]
        exact (digit_value (Nat.mod_lt n (by decide))).1

/-- Reading what was printed. -/
theorem digitsValue_decimal (n : Nat) : digitsValue (decimal n) = n := by
  rw [digitsValue, List.takeWhile_eq_self_iff.mpr (decimal_digits n)]
  induction n using Nat.strongRecOn with
  | ind n ih =>
    by_cases small : n < 10
    · rw [decimal_small small, List.foldl_cons, List.foldl_nil, (digit_value small).2]
      omega
    · rw [decimal_step (by omega), List.foldl_append, ih (n / 10) (by omega), List.foldl_cons, List.foldl_nil,
        (digit_value (Nat.mod_lt n (by decide))).2]
      omega

theorem digit_plain {c : UInt8} (digit : isDigit c = true) :
    isSpace c = false ∧ c ≠ 45 ∧ c ≠ 43 ∧ c ≠ COLON ∧ c ≠ 0 := by
  have other : ∀ plain : UInt8, isDigit plain = false → c ≠ plain := by
    intro plain letter same
    rw [same, letter] at digit
    exact absurd digit (by decide)
  refine ⟨?_, other 45 (by decide), other 43 (by decide), other COLON (by decide), other 0 (by decide)⟩
  rw [isSpace, decide_eq_false_iff_not]
  rintro (blank | ⟨-, control⟩)
  · exact other 32 (by decide) blank
  · have low := (of_decide_eq_true digit).1
    rw [UInt8.le_iff_toNat_le] at low control
    exact absurd (low.trans control) (by decide)

theorem signedValue_decimal (n : Nat) : signedValue (decimal n) = n := by
  have digits := decimal_digits n
  have value := digitsValue_decimal n
  have some_digits : decimal n ≠ [] := by
    rw [decimal, ne_eq, List.map_eq_nil_iff, ← List.length_eq_zero_iff]
    have positive := @Nat.length_toDigits_pos 10 n
    omega
  cases text : decimal n with
  | nil => exact absurd text some_digits
  | cons c rest =>
    rw [text] at digits value
    obtain ⟨space, minus, plus, -⟩ := digit_plain (digits c List.mem_cons_self)
    rw [signedValue, List.dropWhile_cons_of_neg (by rw [space]; decide)]
    simp only [if_neg minus, if_neg plus, value]

theorem atoi_decimal (wide : Int → Int) {n : Nat} (small : n < 2147483648) : atoi wide (decimal n) = n := by
  rw [atoi, signedValue_decimal]
  exact if_pos (by omega)

/-! Which targets are taken. -/

/-- What stands behind the `@`: a host, or a host and a port. -/
inductive HostPort (wide : Int → Int) (host : List UInt8) : List UInt8 → Int → Prop
  | bare : HostPort wide host host 22
  | port (text : List UInt8) : HostPort wide host (host ++ COLON :: text) (atoi wide text)

/-- The text names a user, a host and a port, which is 22 when it is left out. -/
structure Names (wide : Int → Int) (target user host tail : List UInt8) (port : Int) : Prop where
  target : target = user ++ AT :: tail
  noAt : AT ∉ user
  noColon : COLON ∉ host
  tail : HostPort wide host tail port

/-- Both names are there and leave room for their NUL, and the port is one of TCP. -/
structure Fits (out : TargetOut) (user host : List UInt8) (port : Int) : Prop where
  user : 0 < user.length ∧ user.length < out.user.length
  host : 0 < host.length ∧ host.length < out.host.length
  port : 0 < port ∧ port ≤ 65535

/-- The arrays have the sizes they had. -/
def SameSizes (out t : TargetOut) : Prop := t.user.length = out.user.length ∧ t.host.length = out.host.length

theorem strchr_found {before behind : List UInt8} {c : UInt8} (absent : c ∉ before) :
    strchr (before ++ c :: behind) c = some before.length := by
  induction before with
  | nil => rw [strchr, List.nil_append, List.findIdx?_cons, if_pos (decide_eq_true rfl), List.length_nil]
  | cons d before ih =>
    have other : d ≠ c := fun same => absent (same ▸ List.mem_cons_self)
    rw [strchr] at *
    rw [List.cons_append, List.findIdx?_cons, if_neg (by simpa using other),
      ih fun member => absent (List.mem_cons_of_mem d member)]
    rfl

theorem strchr_cases (text : List UInt8) (c : UInt8) :
    (c ∉ text ∧ strchr text c = none) ∨
    ∃ before behind, text = before ++ c :: behind ∧ c ∉ before ∧ strchr text c = some before.length := by
  by_cases present : c ∈ text
  · obtain ⟨before, behind, split, absent⟩ := List.eq_append_cons_of_mem present
    exact Or.inr ⟨before, behind, split, absent, by rw [split, strchr_found absent]⟩
  · refine Or.inl ⟨present, ?_⟩
    rw [strchr, List.findIdx?_eq_none_iff]
    intro d member
    rw [decide_eq_false_iff_not]
    exact fun same => present (same ▸ member)

theorem storeText_length {out text : List UInt8} (fits : text.length < out.length) :
    (storeText out text).length = out.length := by
  rw [storeText, blit, List.length_append, List.length_append, List.length_drop, List.length_append,
    List.length_singleton, List.take_zero, List.length_nil]
  omega

theorem cString_storeText (out : List UInt8) {text : List UInt8} (clean : 0 ∉ text) : cString (storeText out text) = text := by
  have chars : ∀ c ∈ text, decide (c ≠ 0) = true := by
    intro c member
    rw [decide_eq_true_eq]
    exact fun same => clean (same ▸ member)
  rw [cString, storeText, blit, List.take_zero, List.nil_append, List.append_assoc, List.singleton_append,
    List.takeWhile_append_of_pos chars, List.takeWhile_cons_of_neg (by decide), List.append_nil]

theorem storeHost_cases (out : TargetOut) (hp : List UInt8) (hlen : Nat) :
    (0 < hlen ∧ hlen < out.host.length ∧
      storeHost hp hlen out = .ok () { out with host := storeText out.host (hp.take hlen) }) ∨
    (¬(0 < hlen ∧ hlen < out.host.length) ∧ storeHost hp hlen out = .error .fail out) := by
  rw [storeHost, bind_of_ok (get_apply out)]
  cases bad : (decide (hlen = 0) || decide (hlen ≥ out.host.length)) with
  | true =>
    rw [Bool.or_eq_true, decide_eq_true_eq, decide_eq_true_eq] at bad
    exact Or.inr ⟨by omega, bind_of_error (failIf_true out)⟩
  | false =>
    rw [Bool.or_eq_false_iff, decide_eq_false_iff_not, decide_eq_false_iff_not] at bad
    exact Or.inl ⟨by omega, by omega, bind_of_ok (failIf_false out)⟩

theorem split_unique {before behind before' behind' : List UInt8} {c : UInt8} (absent : c ∉ before) (absent' : c ∉ before')
    (same : before ++ c :: behind = before' ++ c :: behind') : before = before' ∧ behind = behind' := by
  have index : strchr (before ++ c :: behind) c = some before.length := strchr_found absent
  rw [same, strchr_found absent'] at index
  have lengths : before'.length = before.length := Option.some.inj index
  obtain ⟨front, back⟩ := List.append_inj same lengths.symm
  exact ⟨front, (List.cons.inj back).2⟩

theorem HostPort.unique {wide : Int → Int} {tail host host' : List UInt8} {port port' : Int} (noColon : COLON ∉ host)
    (noColon' : COLON ∉ host') (first : HostPort wide host tail port) (second : HostPort wide host' tail port') :
    host = host' ∧ port = port' := by
  cases first with
  | bare =>
    cases second with
    | bare => exact ⟨rfl, rfl⟩
    | port text => exact absurd (List.mem_append_right _ List.mem_cons_self) noColon
  | port text =>
    generalize joined : host ++ COLON :: text = tail at *
    cases second with
    | bare =>
      rw [← joined] at noColon'
      exact absurd (List.mem_append_right _ List.mem_cons_self) noColon'
    | port text' =>
      obtain ⟨hosts, texts⟩ := split_unique noColon noColon' joined
      exact ⟨hosts, by rw [texts]⟩

/-- A target has one reading. -/
theorem Names.unique {wide : Int → Int} {target user host tail user' host' tail' : List UInt8} {port port' : Int}
    (first : Names wide target user host tail port) (second : Names wide target user' host' tail' port') :
    user = user' ∧ host = host' ∧ port = port' := by
  obtain ⟨users, tails⟩ := split_unique first.noAt second.noAt (first.target.symm.trans second.target)
  have tailPort := second.tail
  rw [← tails] at tailPort
  obtain ⟨hosts, ports⟩ := HostPort.unique first.noColon second.noColon first.tail tailPort
  exact ⟨users, hosts, ports⟩

/-- The call takes the reading that fits, and refuses a target without one; no store leaves
its array. -/
structure ParsesExactly (wide : Int → Int) (target : List UInt8) (out : TargetOut) : Prop where
  returns : ∀ t, parseTarget wide target out ≠ .error .hang t
  taken : ∀ t, parseTarget wide target out = .ok () t → SameSizes out t ∧
    Fits out (cString t.user) (cString t.host) t.port ∧ ∃ tail, Names wide target (cString t.user) (cString t.host) tail t.port
  refused : ∀ t, parseTarget wide target out = .error .fail t → SameSizes out t ∧
    ∀ user host tail port, Names wide target user host tail port → ¬Fits out user host port

section
variable {wide : Int → Int} {user tail host : List UInt8} {out : TargetOut}

theorem parseTarget_tail (noAt : AT ∉ user) (room : 0 < user.length ∧ user.length < out.user.length) :
    parseTarget wide (user ++ AT :: tail) out =
      (match strchr tail COLON with
      | some hlen => do
        storeHost tail hlen
        let port := atoi wide (tail.drop (hlen + 1))
        modify fun t => { t with port := port }
        failIf (port ≤ 0 || port > 65535)
      | none => do
        storeHost tail tail.length
        modify fun t => { t with port := 22 } : Call TargetOut Unit) { out with user := storeText out.user user } := by
  have accepted : (decide (user.length = 0) || decide (user.length ≥ out.user.length)) = false := by
    rw [Bool.or_eq_false_iff, decide_eq_false_iff_not, decide_eq_false_iff_not]
    omega
  have behind : (user ++ AT :: tail).drop (user.length + 1) = tail := by
    rw [← List.drop_drop, List.drop_left]
    rfl
  rw [parseTarget, strchr_found noAt]
  simp only
  rw [bind_of_ok (get_apply out), accepted, bind_of_ok (failIf_false out), bind_of_ok (modify_apply _ _), behind,
    List.take_left]

/-- The port is stored and checked. -/
theorem port_cases (out : TargetOut) (port : Int) :
    (0 < port ∧ port ≤ 65535 ∧ (do
      modify fun t => { t with port := port }
      failIf (port ≤ 0 || port > 65535) : Call TargetOut Unit) out = .ok () { out with port := port }) ∨
    (¬(0 < port ∧ port ≤ 65535) ∧ (do
      modify fun t => { t with port := port }
      failIf (port ≤ 0 || port > 65535) : Call TargetOut Unit) out = .error .fail { out with port := port }) := by
  rw [bind_of_ok (modify_apply _ _)]
  cases bad : (decide (port ≤ 0) || decide (port > 65535)) with
  | true =>
    rw [Bool.or_eq_true, decide_eq_true_eq, decide_eq_true_eq] at bad
    exact Or.inr ⟨by omega, rfl⟩
  | false =>
    rw [Bool.or_eq_false_iff, decide_eq_false_iff_not, decide_eq_false_iff_not] at bad
    exact Or.inl ⟨by omega, by omega, rfl⟩

/-- What the call does with the reading of its target. -/
def Follows (wide : Int → Int) (target user host : List UInt8) (port : Int) (out : TargetOut) : Prop :=
  (Fits out user host port ∧
    parseTarget wide target out = .ok () ⟨storeText out.user user, storeText out.host host, port⟩) ∨
  (¬Fits out user host port ∧ ∃ t, parseTarget wide target out = .error .fail t ∧ SameSizes out t)

theorem parse_bare (noAt : AT ∉ user) (room : 0 < user.length ∧ user.length < out.user.length) (noColon : COLON ∉ host) :
    Follows wide (user ++ AT :: host) user host 22 out := by
  have bare : strchr host COLON = none := by
    rcases strchr_cases host COLON with ⟨-, absent⟩ | ⟨before, behind, split, -⟩
    · exact absent
    · exact absurd (by rw [split]; exact List.mem_append_right _ List.mem_cons_self) noColon
  rw [Follows, parseTarget_tail noAt room, bare]
  simp only
  rcases storeHost_cases { out with user := storeText out.user user } host host.length with
    ⟨some_host, fits, stored⟩ | ⟨bad, refused⟩
  · rw [bind_of_ok stored, List.take_length]
    exact Or.inl ⟨⟨room, ⟨some_host, fits⟩, by decide⟩, rfl⟩
  · rw [bind_of_error refused]
    exact Or.inr ⟨fun fits => bad fits.host, _, rfl, storeText_length room.2, rfl⟩

theorem parse_port {text : List UInt8} (noAt : AT ∉ user) (room : 0 < user.length ∧ user.length < out.user.length)
    (noColon : COLON ∉ host) :
    Follows wide (user ++ AT :: (host ++ COLON :: text)) user host (atoi wide text) out := by
  have behind : (host ++ COLON :: text).drop (host.length + 1) = text := by
    rw [← List.drop_drop, List.drop_left]
    rfl
  rw [Follows, parseTarget_tail noAt room, strchr_found noColon]
  simp only [behind]
  rcases storeHost_cases { out with user := storeText out.user user } (host ++ COLON :: text) host.length with
    ⟨some_host, fits, stored⟩ | ⟨bad, refused⟩
  · rw [bind_of_ok stored, List.take_left]
    rcases port_cases ⟨storeText out.user user, storeText out.host host, out.port⟩ (atoi wide text) with
      ⟨positive, tcp, returned⟩ | ⟨bad, refused⟩
    · exact Or.inl ⟨⟨room, ⟨some_host, fits⟩, positive, tcp⟩, returned⟩
    · exact Or.inr ⟨fun fits => bad fits.port, _, refused, storeText_length room.2, storeText_length fits⟩
  · rw [bind_of_error refused]
    exact Or.inr ⟨fun fits => bad fits.host, _, rfl, storeText_length room.2, rfl⟩

end

theorem parse_reading {wide : Int → Int} {target user host tail : List UInt8} {port : Int}
    (names : Names wide target user host tail port) (out : TargetOut) : Follows wide target user host port out := by
  obtain ⟨target_eq, noAt, noColon, reading⟩ := names
  rw [target_eq]
  by_cases room : 0 < user.length ∧ user.length < out.user.length
  · cases reading with
    | bare => exact parse_bare noAt room noColon
    | port text => exact parse_port noAt room noColon
  · have refused : (decide (user.length = 0) || decide (user.length ≥ out.user.length)) = true := by
      rw [Bool.or_eq_true, decide_eq_true_eq, decide_eq_true_eq]
      omega
    refine Or.inr ⟨fun fits => room fits.user, out, ?_, rfl, rfl⟩
    rw [parseTarget, strchr_found noAt]
    simp only
    rw [bind_of_ok (get_apply out), refused, bind_of_error (failIf_true out)]

theorem has_reading (wide : Int → Int) {target : List UInt8} (present : AT ∈ target) :
    ∃ user host tail port, Names wide target user host tail port := by
  obtain ⟨user, tail, split, noAt⟩ := List.eq_append_cons_of_mem present
  rcases strchr_cases tail COLON with ⟨noColon, -⟩ | ⟨host, text, rfl, noColon, -⟩
  · exact ⟨user, tail, tail, 22, split, noAt, noColon, .bare⟩
  · exact ⟨user, host, _, _, split, noAt, noColon, .port text⟩

theorem parsesExactly_taken {wide : Int → Int} {target : List UInt8} {out t : TargetOut}
    (parsed : parseTarget wide target out = .ok () t) (sizes : SameSizes out t)
    (fits : Fits out (cString t.user) (cString t.host) t.port)
    (names : ∃ tail, Names wide target (cString t.user) (cString t.host) tail t.port) : ParsesExactly wide target out := by
  refine ⟨?_, ?_, ?_⟩ <;> rw [parsed]
  · exact fun _ => nofun
  · rintro _ ⟨⟩
    exact ⟨sizes, fits, names⟩
  · exact fun _ => nofun

theorem parsesExactly_refused {wide : Int → Int} {target : List UInt8} {out t : TargetOut}
    (failed : parseTarget wide target out = .error .fail t) (sizes : SameSizes out t)
    (unfit : ∀ user host tail port, Names wide target user host tail port → ¬Fits out user host port) :
    ParsesExactly wide target out := by
  refine ⟨?_, ?_, ?_⟩ <;> rw [failed]
  · exact fun _ => nofun
  · exact fun _ => nofun
  · rintro _ ⟨⟩
    exact ⟨sizes, unfit⟩

theorem parses_exactly (wide : Int → Int) (target : List UInt8) (out : TargetOut) (text : 0 ∉ target) :
    ParsesExactly wide target out := by
  by_cases present : AT ∈ target
  · obtain ⟨user, host, tail, port, names⟩ := has_reading wide present
    have behind : ∀ c ∈ host, c ∈ tail := by
      intro c member
      cases names.tail with
      | bare => exact member
      | port text => exact List.mem_append_left _ member
    rw [names.target, List.mem_append, List.mem_cons] at text
    rcases parse_reading names out with ⟨fits, parsed⟩ | ⟨unfit, t, failed, sizes⟩
    · have userText : cString (storeText out.user user) = user :=
        cString_storeText _ fun member => text (Or.inl member)
      have hostText : cString (storeText out.host host) = host :=
        cString_storeText _ fun member => text (Or.inr (Or.inr (behind 0 member)))
      refine parsesExactly_taken parsed ⟨storeText_length fits.user.2, storeText_length fits.host.2⟩ ?_ ⟨tail, ?_⟩
      · rw [userText, hostText]
        exact fits
      · rw [userText, hostText]
        exact names
    · refine parsesExactly_refused failed sizes fun user' host' tail' port' other => ?_
      obtain ⟨users, hosts, ports⟩ := names.unique other
      rw [← users, ← hosts, ← ports]
      exact unfit
  · have absent : strchr target AT = none := by
      rcases strchr_cases target AT with ⟨-, none⟩ | ⟨before, behind, split, -⟩
      · exact none
      · exact absurd (by rw [split]; exact List.mem_append_right _ List.mem_cons_self) present
    have failed : parseTarget wide target out = .error .fail out := by
      rw [parseTarget, absent]
      rfl
    refine parsesExactly_refused failed ⟨rfl, rfl⟩ fun user host tail port names => ?_
    exact absurd (by rw [names.target]; exact List.mem_append_right _ List.mem_cons_self) present

/-- The variables of `main`. -/
def emptyTarget : TargetOut := { user := List.replicate 128 0, host := List.replicate 256 0, port := 22 }

theorem parses_exactly_with_port : ParsesExactly id (literal "root@localhost:2222") emptyTarget :=
  parses_exactly id (literal "root@localhost:2222") emptyTarget (by decide +kernel)

/-- A target that was put together is taken apart again. -/
theorem parse_printed (wide : Int → Int) {user host : List UInt8} {port : Nat} {out : TargetOut} (noAt : AT ∉ user)
    (noColon : COLON ∉ host) (fits : Fits out user host port) :
    parseTarget wide (user ++ AT :: (host ++ COLON :: decimal port)) out =
      .ok () ⟨storeText out.user user, storeText out.host host, port⟩ := by
  have tcp := fits.port.2
  have printed : atoi wide (decimal port) = port := atoi_decimal wide (by omega)
  have follows : Follows wide (user ++ AT :: (host ++ COLON :: decimal port)) user host (atoi wide (decimal port)) out :=
    parse_port noAt fits.user noColon
  rcases follows with ⟨-, parsed⟩ | ⟨unfit, -⟩
  · rw [parsed, printed]
  · rw [printed] at unfit
    exact absurd fits unfit

end Coalesce.Target
