import Coalesce.KexAgreement

/-! What the two pointer loops of the matcher choose: the client's first name that
the server also has. Splitting a list at its commas comes first here, and never there. -/

namespace Coalesce.KexChoice
open Library.CallResult Buffer BufferBytes Kex KexAgreement

/-- The names of a list, empty ones included. -/
def names (list : Option (List UInt8)) : List (List UInt8) :=
  match list with
  | none => []
  | some list => (cString list).splitOn COMMA

/-- The first non-empty name of the client that the server has as a whole name. -/
def firstCommon (clientList serverList : Option (List UInt8)) : Option (List UInt8) :=
  (names clientList).find? fun name => decide (name ≠ [] ∧ name ∈ names serverList)

/-! The eight things negotiated. -/

inductive Category where
  | kex
  | hostKey
  | cipherC2s
  | cipherS2c
  | macC2s
  | macS2c
  | compC2s
  | compS2c
  deriving DecidableEq, Repr

def offered (kex : SshKexInit) : Category → Option (List UInt8)
  | .kex => kex.kexAlgorithms
  | .hostKey => kex.serverHostKeyAlgorithms
  | .cipherC2s => kex.encryptionAlgorithmsClientToServer
  | .cipherS2c => kex.encryptionAlgorithmsServerToClient
  | .macC2s => kex.macAlgorithmsClientToServer
  | .macS2c => kex.macAlgorithmsServerToClient
  | .compC2s => kex.compressionAlgorithmsClientToServer
  | .compS2c => kex.compressionAlgorithmsServerToClient

def selected (chosen : SshKexProposal) : Category → Option (List UInt8)
  | .kex => chosen.kex
  | .hostKey => chosen.hostKey
  | .cipherC2s => chosen.cipherC2s
  | .cipherS2c => chosen.cipherS2c
  | .macC2s => chosen.macC2s
  | .macS2c => chosen.macS2c
  | .compC2s => chosen.compC2s
  | .compS2c => chosen.compS2c

/-- The field that `match_list` fills for a category. -/
def common (c s : SshKexInit) (category : Category) : Option (List UInt8) :=
  firstCommon (offered c category) (offered s category)

def commonProposal (c s : SshKexInit) : SshKexProposal :=
  ⟨common c s .kex, common c s .hostKey, common c s .cipherC2s, common c s .cipherS2c, common c s .macC2s,
    common c s .macS2c, common c s .compC2s, common c s .compS2c⟩

/-! One step of either loop is one name of the split. -/

theorem comma_not_mem_nameAt (p : List UInt8) : COMMA ∉ nameAt p := by
  intro member
  have other := List.all_eq_true.mp List.all_takeWhile COMMA member
  simp at other

theorem splitOn_afterComma (p : List UInt8) :
    p.splitOn COMMA = nameAt p :: ((afterComma p).map fun rest => rest.splitOn COMMA).getD [] := by
  have whole : nameAt p ++ p.dropWhile (· ≠ COMMA) = p := List.takeWhile_append_dropWhile
  have behind : p.drop (nameAt p).length = p.dropWhile (· ≠ COMMA) := by
    have front := congrArg (List.drop (nameAt p).length) whole
    rw [List.drop_left] at front
    exact front.symm
  have clean := comma_not_mem_nameAt p
  unfold afterComma
  rw [behind]
  cases remaining : p.dropWhile (· ≠ COMMA) with
  | nil =>
    rw [remaining, List.append_nil] at whole
    rw [whole] at clean ⊢
    exact List.splitOn_eq_singleton clean
  | cons comma rest =>
    have found : comma = COMMA := by
      have stopped := List.head?_dropWhile_not (fun byte => decide (byte ≠ COMMA)) p
      rw [remaining] at stopped
      simpa using stopped
    rw [remaining, found] at whole
    have split := List.splitOn_append_cons_self_of_not_mem clean rest
    rw [whole] at split
    exact split

theorem splitOn_none {p : List UInt8} (last : afterComma p = none) : p.splitOn COMMA = [nameAt p] := by
  rw [splitOn_afterComma, last]
  rfl

theorem splitOn_some {p rest : List UInt8} (comma : afterComma p = some rest) :
    p.splitOn COMMA = nameAt p :: rest.splitOn COMMA := by
  rw [splitOn_afterComma, comma]
  rfl

/-- A length and that many equal characters make one name equal to another. -/
theorem same_name (p item : List UInt8) :
    ((nameAt p).length = (nameAt item).length ∧ strncmpEq p item (nameAt p).length) ↔ nameAt p = nameAt item := by
  have front (q : List UInt8) : q.take (nameAt q).length = nameAt q := by
    have start : nameAt q <+: q := List.takeWhile_prefix _
    exact (List.prefix_iff_eq_take.mp start).symm
  constructor
  · rintro ⟨length, equal⟩
    have characters : p.take (nameAt p).length = item.take (nameAt p).length := by simpa [strncmpEq] using equal
    rw [front, length, front] at characters
    exact characters
  · intro equal
    refine ⟨by rw [equal], ?_⟩
    have characters : p.take (nameAt p).length = item.take (nameAt p).length := by rw [front, equal, front]
    simpa [strncmpEq] using characters

theorem containsFrom_iff (p item : List UInt8) (named : nameAt item ≠ []) :
    containsFrom p item (nameAt item).length = true ↔ nameAt item ∈ p.splitOn COMMA := by
  fun_induction containsFrom p item (nameAt item).length with
  | case1 => simp [List.splitOn_nil, named]
  | case2 p _ found =>
    rw [splitOn_afterComma, ← (same_name p item).mp found]
    simp
  | case3 p _ different last =>
    rw [splitOn_none last]
    rw [same_name] at different
    simp [Ne.symm different]
  | case4 p _ different rest comma ih =>
    rw [splitOn_some comma, List.mem_cons, ih]
    rw [same_name] at different
    simp [Ne.symm different]

theorem listContains_iff (serverList item : List UInt8) :
    (nameAt item).length > 0 ∧ listContains (some serverList) item (nameAt item).length = true ↔
      nameAt item ≠ [] ∧ nameAt item ∈ names (some serverList) := by
  rw [gt_iff_lt, List.length_pos_iff]
  refine and_congr_right fun named => ?_
  simp only [listContains, List.length_eq_zero_iff, named, if_false]
  exact containsFrom_iff _ item named

theorem matchFrom_first (p serverList : List UInt8) :
    Settles (matchFrom p serverList)
      ((p.splitOn COMMA).find? fun name => decide (name ≠ [] ∧ name ∈ names (some serverList))) := by
  fun_induction matchFrom p serverList with
  | case1 => exact settles_pure none
  | case2 p _ found =>
    rw [listContains_iff] at found
    rw [splitOn_afterComma, List.find?_cons_of_pos (by simpa only [decide_eq_true_eq] using found)]
    exact settles_mallocCopy _
  | case3 p _ absent last =>
    rw [listContains_iff] at absent
    rw [splitOn_none last, List.find?_cons_of_neg (by simpa only [decide_eq_true_eq] using absent)]
    exact settles_pure none
  | case4 p _ absent rest comma ih =>
    rw [listContains_iff] at absent
    rw [splitOn_some comma, List.find?_cons_of_neg (by simpa only [decide_eq_true_eq] using absent)]
    exact ih

theorem firstCommon_none_left (serverList : Option (List UInt8)) : firstCommon none serverList = none := rfl

theorem firstCommon_none_right (clientList : Option (List UInt8)) : firstCommon clientList none = none := by
  apply List.find?_eq_none.mpr
  simp [names]

theorem matchList_first (clientList serverList : Option (List UInt8)) :
    Settles (matchList clientList serverList) (firstCommon clientList serverList) := by
  cases clientList with
  | none =>
    rw [firstCommon_none_left]
    exact settles_pure none
  | some clientList =>
    cases serverList with
    | none =>
      rw [firstCommon_none_right]
      exact settles_pure none
    | some serverList => exact matchFrom_first (cString clientList) serverList

/-! The whole negotiation. -/

theorem complete_iff (c s : SshKexInit) :
    (commonProposal c s).complete = true ↔ ∀ category, ∃ name, common c s category = some name := by
  simp only [SshKexProposal.complete, commonProposal, Bool.and_eq_true, Option.isSome_iff_exists]
  constructor
  · rintro ⟨⟨⟨⟨⟨⟨⟨kex, hostKey⟩, cipherC2s⟩, cipherS2c⟩, macC2s⟩, macS2c⟩, compC2s⟩, compS2c⟩ category
    cases category <;> assumption
  · intro every
    exact ⟨⟨⟨⟨⟨⟨⟨every .kex, every .hostKey⟩, every .cipherC2s⟩, every .cipherS2c⟩, every .macC2s⟩, every .macS2c⟩,
      every .compC2s⟩, every .compS2c⟩

theorem kexNegotiate_common (c s : SshKexInit) :
    Settles (kexNegotiate c s)
      (if (commonProposal c s).complete then (true, commonProposal c s) else (false, zeroProposal)) := by
  unfold kexNegotiate
  iterate 8 refine settles_bind (matchList_first _ _) ?_
  rw [← apply_ite pure]
  exact settles_pure _

/-- The lists decide; cookies, languages and the flag do not. -/
theorem kexNegotiate_congr {c s c' s' : SshKexInit} (client : offered c' = offered c) (server : offered s' = offered s) :
    kexNegotiate c' s' = kexNegotiate c s := by
  have lists (category : Category) : matchList (offered c' category) (offered s' category) =
      matchList (offered c category) (offered s category) := by
    rw [client, server]
  have kex := lists .kex
  have hostKey := lists .hostKey
  have cipherC2s := lists .cipherC2s
  have cipherS2c := lists .cipherS2c
  have macC2s := lists .macC2s
  have macS2c := lists .macS2c
  have compC2s := lists .compC2s
  have compS2c := lists .compS2c
  simp only [offered] at kex hostKey cipherC2s cipherS2c macC2s macS2c compC2s compS2c
  unfold kexNegotiate
  rw [kex, hostKey, cipherC2s, cipherS2c, macC2s, macS2c, compC2s, compS2c]

/-- Client-first choice in all eight categories, or nothing chosen at all; and a choice
that the other fields of the two messages have no part in. -/
theorem negotiates_client_first (c s : SshKexInit) (heap : Heap) (plenty : Plenty heap) :
    (∀ category, ∃ left, matchList (offered c category) (offered s category) heap = .ok (common c s category) left) ∧
      ∃ ok chosen left, kexNegotiate c s heap = .ok (ok, chosen) left ∧
        (ok = true ↔ ∀ category, ∃ name, common c s category = some name) ∧
        (ok = true → ∀ category, selected chosen category = common c s category) ∧
        (ok = false → ∀ category, selected chosen category = none) ∧
        ∀ c' s', offered c' = offered c → offered s' = offered s → kexNegotiate c' s' heap = .ok (ok, chosen) left := by
  constructor
  · intro category
    obtain ⟨left, returned, -⟩ := matchList_first (offered c category) (offered s category) heap plenty
    exact ⟨left, returned⟩
  · obtain ⟨left, returned, -⟩ := kexNegotiate_common c s heap plenty
    have same (c' s' : SshKexInit) (client : offered c' = offered c) (server : offered s' = offered s) :
        kexNegotiate c' s' heap = kexNegotiate c s heap := by rw [kexNegotiate_congr client server]
    by_cases complete : (commonProposal c s).complete
    · rw [if_pos complete] at returned
      refine ⟨true, commonProposal c s, left, returned, by simp [← complete_iff, complete], ?_, by simp, ?_⟩
      · intro _ category
        cases category <;> rfl
      · intro c' s' client server
        rw [same c' s' client server, returned]
    · rw [if_neg complete] at returned
      refine ⟨false, zeroProposal, left, returned, by simp [← complete_iff, complete], by simp, ?_, ?_⟩
      · intro _ category
        cases category <;> rfl
      · intro c' s' client server
        rw [same c' s' client server, returned]

/-- A name that is a prefix of the server's only one does not match it. -/
theorem negotiates_client_first_prefix :
    let c := { zeroKexInit with kexAlgorithms := some [97, COMMA, COMMA, 97, 98] }
    let s := { zeroKexInit with kexAlgorithms := some [97, 98] }
    (∀ category, ∃ left, matchList (offered c category) (offered s category) [] = .ok (common c s category) left) ∧
      ∃ ok chosen left, kexNegotiate c s [] = .ok (ok, chosen) left ∧
        (ok = true ↔ ∀ category, ∃ name, common c s category = some name) ∧
        (ok = true → ∀ category, selected chosen category = common c s category) ∧
        (ok = false → ∀ category, selected chosen category = none) ∧
        ∀ c' s', offered c' = offered c → offered s' = offered s → kexNegotiate c' s' [] = .ok (ok, chosen) left :=
  negotiates_client_first _ _ [] (by decide)

end Coalesce.KexChoice
