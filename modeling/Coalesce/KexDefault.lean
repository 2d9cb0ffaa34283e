import Coalesce.KexRefusals
import Coalesce.KeyInstall
import Coalesce.Ident

/-! The proposal that a party starts from, `kex_init_default`, and what a negotiation with
such a party can come to. -/

namespace Coalesce.KexDefault
open Library.CallResult Buffer BufferBytes Kex KexAgreement KexChoice KexRefusals
open Aes Session SessionExchange Rekey KeyInstall
open Ident (literal)

def DEFAULT_KEX : List UInt8 := literal "curve25519-sha256"
def DEFAULT_HOSTKEY : List UInt8 := literal "ssh-ed25519"
def DEFAULT_CIPHERS : List UInt8 := literal "aes128-ctr,aes256-ctr"
def DEFAULT_MACS : List UInt8 := literal "hmac-sha2-256"
def DEFAULT_COMP : List UInt8 := literal "none"

def strdupSafe (string : Option (List UInt8)) : Call Heap (Option (List UInt8)) :=
  match string with
  | none => pure none
  | some string => mallocCopy (cString string)

/-- `rand` is what `rand_bytes` answers. Nothing looks at `is_server`. -/
def kexInitDefault (rand : (n : Nat) → Option (Vector UInt8 n)) (_isServer : Bool) : Call Heap SshKexInit := do
  let cookie := (rand 16).getD (Vector.replicate 16 0)
  let kexAlgorithms ← strdupSafe (some DEFAULT_KEX)
  let serverHostKeyAlgorithms ← strdupSafe (some DEFAULT_HOSTKEY)
  let encryptionAlgorithmsClientToServer ← strdupSafe (some DEFAULT_CIPHERS)
  let encryptionAlgorithmsServerToClient ← strdupSafe (some DEFAULT_CIPHERS)
  let macAlgorithmsClientToServer ← strdupSafe (some DEFAULT_MACS)
  let macAlgorithmsServerToClient ← strdupSafe (some DEFAULT_MACS)
  let compressionAlgorithmsClientToServer ← strdupSafe (some DEFAULT_COMP)
  let compressionAlgorithmsServerToClient ← strdupSafe (some DEFAULT_COMP)
  let languagesClientToServer ← strdupSafe (some [])
  let languagesServerToClient ← strdupSafe (some [])
  pure
    { cookie := cookie
      kexAlgorithms := kexAlgorithms
      serverHostKeyAlgorithms := serverHostKeyAlgorithms
      encryptionAlgorithmsClientToServer := encryptionAlgorithmsClientToServer
      encryptionAlgorithmsServerToClient := encryptionAlgorithmsServerToClient
      macAlgorithmsClientToServer := macAlgorithmsClientToServer
      macAlgorithmsServerToClient := macAlgorithmsServerToClient
      compressionAlgorithmsClientToServer := compressionAlgorithmsClientToServer
      compressionAlgorithmsServerToClient := compressionAlgorithmsServerToClient
      languagesClientToServer := languagesClientToServer
      languagesServerToClient := languagesServerToClient
      firstKexPacketFollows := false }

/-- The list that a default party has for a category. -/
def defaultList : Category → List UInt8
  | .kex => DEFAULT_KEX
  | .hostKey => DEFAULT_HOSTKEY
  | .cipherC2s | .cipherS2c => DEFAULT_CIPHERS
  | .macC2s | .macS2c => DEFAULT_MACS
  | .compC2s | .compS2c => DEFAULT_COMP

/-! What the allocator leaves of the lists. -/

/-- A list whose copy is request `i`. -/
def kept (heap : Heap) (i : Nat) (list : List UInt8) : Option (List UInt8) := if heap.getD i true then some list else none

def position : Category → Nat
  | .kex => 0
  | .hostKey => 1
  | .cipherC2s => 2
  | .cipherS2c => 3
  | .macC2s => 4
  | .macS2c => 5
  | .compC2s => 6
  | .compS2c => 7

/-- A proposal with default lists, less the ones that the allocator refused. -/
structure Defaulted (heap : Heap) (kex : SshKexInit) : Prop where
  offered : ∀ category, offered kex category = kept heap (position category) (defaultList category)
  languagesC2s : kex.languagesClientToServer = kept heap 8 []
  languagesS2c : kex.languagesServerToClient = kept heap 9 []
  follows : kex.firstKexPacketFollows = false

theorem strdupSafe_kept (heap : Heap) (i : Nat) {list : List UInt8} (clean : cString list = list) :
    strdupSafe (some list) (heap.drop i) = .ok (kept heap i list) (heap.drop (i + 1)) := by
  have answer : (Heap.alloc (heap.drop i)).1 = heap.getD i true := by
    rw [List.getD_eq_getElem?_getD, ← List.head?_drop]
    cases heap.drop i <;> rfl
  have left : (Heap.alloc (heap.drop i)).2 = heap.drop (i + 1) := by rw [alloc_drop, List.drop_drop]
  change EStateM.Result.ok (if (Heap.alloc (heap.drop i)).1 then some (cString list) else none) (Heap.alloc (heap.drop i)).2 = _
  rw [answer, left, clean, kept]

theorem kexInitDefault_made (rand : (n : Nat) → Option (Vector UInt8 n)) (isServer : Bool) (heap : Heap) :
    ∃ kex, kexInitDefault rand isServer heap = .ok kex (heap.drop 10) ∧ Defaulted heap kex ∧
      kex.cookie = (rand 16).getD (Vector.replicate 16 0) := by
  have kexText : cString DEFAULT_KEX = DEFAULT_KEX := by decide +kernel
  have hostKeyText : cString DEFAULT_HOSTKEY = DEFAULT_HOSTKEY := by decide +kernel
  have cipherText : cString DEFAULT_CIPHERS = DEFAULT_CIPHERS := by decide +kernel
  have macText : cString DEFAULT_MACS = DEFAULT_MACS := by decide +kernel
  have compText : cString DEFAULT_COMP = DEFAULT_COMP := by decide +kernel
  have first : strdupSafe (some DEFAULT_KEX) heap = .ok (kept heap 0 DEFAULT_KEX) (heap.drop 1) := strdupSafe_kept heap 0 kexText
  unfold kexInitDefault
  rw [bind_of_ok first, bind_of_ok (strdupSafe_kept heap 1 hostKeyText),
    bind_of_ok (strdupSafe_kept heap 2 cipherText), bind_of_ok (strdupSafe_kept heap 3 cipherText),
    bind_of_ok (strdupSafe_kept heap 4 macText), bind_of_ok (strdupSafe_kept heap 5 macText),
    bind_of_ok (strdupSafe_kept heap 6 compText), bind_of_ok (strdupSafe_kept heap 7 compText),
    bind_of_ok (strdupSafe_kept heap 8 rfl), bind_of_ok (strdupSafe_kept heap 9 rfl)]
  refine ⟨_, rfl, ⟨?_, rfl, rfl, rfl⟩, rfl⟩
  intro category
  cases category <;> rfl

/-! Names that a default party can agree to. -/

/-- A `char *` as the comparisons of `session_set_keys` read it. -/
def nameOf (name : List UInt8) : String := String.ofList (name.map fun c => Char.ofNat c.toNat)

/-- The names of the default list of a category. -/
def known : Category → List (List UInt8)
  | .kex => [literal "curve25519-sha256"]
  | .hostKey => [literal "ssh-ed25519"]
  | .cipherC2s | .cipherS2c => [literal "aes128-ctr", literal "aes256-ctr"]
  | .macC2s | .macS2c => [literal "hmac-sha2-256"]
  | .compC2s | .compS2c => [literal "none"]

theorem names_default (category : Category) : names (some (defaultList category)) = known category := by
  cases category <;> decide +kernel

theorem names_kept {heap : Heap} {i : Nat} {list name : List UInt8} (member : name ∈ names (kept heap i list)) :
    heap.getD i true = true ∧ name ∈ names (some list) := by
  unfold kept at member
  split at member
  · next granted => exact ⟨granted, member⟩
  · cases member

theorem common_names {c s : SshKexInit} {category : Category} {name : List UInt8} (found : common c s category = some name) :
    name ∈ names (offered c category) ∧ name ∈ names (offered s category) := by
  have chosen := List.find?_some found
  simp only [decide_eq_true_eq] at chosen
  exact ⟨List.mem_of_find?_eq_some found, chosen.2⟩

/-- Either end may be the default party, and the lists of the other are anything. -/
theorem common_known {heap : Heap} {own c s : SshKexInit} (defaulted : Defaulted heap own) (party : c = own ∨ s = own)
    {category : Category} {name : List UInt8} (found : common c s category = some name) : name ∈ known category := by
  obtain ⟨client, server⟩ := common_names found
  have own_names : name ∈ names (offered own category) := by
    rcases party with rfl | rfl
    · exact client
    · exact server
  rw [defaulted.offered] at own_names
  rw [← names_default]
  exact (names_kept own_names).2

/-! Two default parties. -/

/-- The first default name. -/
def preferred : Category → List UInt8
  | .kex => literal "curve25519-sha256"
  | .hostKey => literal "ssh-ed25519"
  | .cipherC2s | .cipherS2c => literal "aes128-ctr"
  | .macC2s | .macS2c => literal "hmac-sha2-256"
  | .compC2s | .compS2c => literal "none"

def Granted (heap : Heap) : Prop := ∀ answer ∈ heap.take 8, answer = true

instance (heap : Heap) : Decidable (Granted heap) := inferInstanceAs (Decidable (∀ answer ∈ heap.take 8, answer = true))

theorem granted_iff (heap : Heap) : Granted heap ↔ ∀ category, heap.getD (position category) true = true := by
  have places : Granted heap ↔ ∀ i < 8, heap.getD i true = true := by
    constructor
    · intro granted i inside
      rw [List.getD_eq_getElem?_getD]
      cases answer : heap[i]? with
      | none => rfl
      | some value =>
        refine granted value (List.mem_iff_getElem?.mpr ⟨i, ?_⟩)
        rw [List.getElem?_take_of_lt inside, answer]
    · intro all answer member
      obtain ⟨i, found⟩ := List.mem_iff_getElem?.mp member
      rw [List.getElem?_take] at found
      split at found
      · next inside =>
        have value := all i inside
        rw [List.getD_eq_getElem?_getD, found] at value
        exact value
      · cases found
  rw [places]
  constructor
  · intro all category
    exact all _ (by cases category <;> decide)
  · intro all i inside
    interval_cases i
    · exact all .kex
    · exact all .hostKey
    · exact all .cipherC2s
    · exact all .cipherS2c
    · exact all .macC2s
    · exact all .macS2c
    · exact all .compC2s
    · exact all .compS2c

theorem firstCommon_default (category : Category) :
    firstCommon (some (defaultList category)) (some (defaultList category)) = some (preferred category) := by
  unfold firstCommon
  rw [names_default]
  cases category <;> decide +kernel

theorem common_default {heap heap' : Heap} {client server : SshKexInit} (defaulted : Defaulted heap client)
    (defaulted' : Defaulted heap' server) (category : Category) :
    common client server category =
      if heap.getD (position category) true = true ∧ heap'.getD (position category) true = true then
        some (preferred category) else none := by
  rw [common, defaulted.offered, defaulted'.offered, kept, kept]
  by_cases atClient : heap.getD (position category) true = true
  · by_cases atServer : heap'.getD (position category) true = true
    · rw [if_pos atClient, if_pos atServer, if_pos ⟨atClient, atServer⟩, firstCommon_default]
    · have notBoth : ¬(heap.getD (position category) true = true ∧ heap'.getD (position category) true = true) :=
        fun both => atServer both.2
      rw [if_neg atServer, if_neg notBoth, firstCommon_none_right]
  · have notBoth : ¬(heap.getD (position category) true = true ∧ heap'.getD (position category) true = true) :=
      fun both => atClient both.1
    rw [if_neg atClient, if_neg notBoth, firstCommon_none_left]

theorem complete_default {heap heap' : Heap} {client server : SshKexInit} (defaulted : Defaulted heap client)
    (defaulted' : Defaulted heap' server) :
    (commonProposal client server).complete = true ↔ Granted heap ∧ Granted heap' := by
  rw [complete_iff, granted_iff, granted_iff, ← forall_and]
  apply forall_congr'
  intro category
  rw [common_default defaulted defaulted']
  split <;> simp_all

/-- Two default parties, with any entropy and any allocator at either end and in the
negotiation. They agree when no request for one of the eight lists, or for a copy of a chosen
name, was refused, and then on the names that the client prefers; the lists of languages do
not matter. -/
theorem defaults_agree_exactly (rand rand' : (n : Nat) → Option (Vector UInt8 n)) (atClient atServer heap left left' : Heap)
    (client server : SshKexInit) (made : kexInitDefault rand false atClient = .ok client left)
    (made' : kexInitDefault rand' true atServer = .ok server left') :
    ∃ ok chosen after, kexNegotiate client server heap = .ok (ok, chosen) after ∧
      (ok = true ↔ Granted atClient ∧ Granted atServer ∧ Granted heap) ∧
      ∀ category, selected chosen category = if ok then some (preferred category) else none := by
  obtain ⟨kex, returned, defaulted, -⟩ := kexInitDefault_made rand false atClient
  obtain ⟨kex', returned', defaulted', -⟩ := kexInitDefault_made rand' true atServer
  rw [returned] at made
  rw [returned'] at made'
  cases made
  cases made'
  have negotiated := kexNegotiate_exact client server heap
  have agree : ((commonProposal client server).complete = true ∧ ∀ answer ∈ heap.take 8, answer = true) ↔
      Granted atClient ∧ Granted atServer ∧ Granted heap := by
    rw [complete_default defaulted defaulted', and_assoc]
    rfl
  by_cases all : Granted atClient ∧ Granted atServer ∧ Granted heap
  · rw [if_pos (agree.mpr all)] at negotiated
    refine ⟨true, _, _, negotiated, iff_of_true rfl all, fun category => ?_⟩
    have lists := common_default defaulted defaulted' category
    rw [if_pos ⟨(granted_iff _).mp all.1 category, (granted_iff _).mp all.2.1 category⟩] at lists
    rw [if_pos rfl, ← lists]
    cases category <;> rfl
  · rw [if_neg fun both => all (agree.mp both)] at negotiated
    refine ⟨false, _, _, negotiated, iff_of_false Bool.false_ne_true all, fun category => ?_⟩
    cases category <;> rfl

def noEntropy (n : Nat) : Option (Vector UInt8 n) := Option.none

/-- No entropy at the client, no memory for the languages at the server. -/
theorem defaults_agree_exactly_languages :
    ∃ client server ok chosen after, kexInitDefault noEntropy false [] = .ok client [] ∧
      kexInitDefault noEntropy true (List.replicate 8 true ++ [false, false]) = .ok server [] ∧
      kexNegotiate client server [] = .ok (ok, chosen) after ∧
      (ok = true ↔ Granted [] ∧ Granted (List.replicate 8 true ++ [false, false]) ∧ Granted []) ∧
      ∀ category, selected chosen category = if ok then some (preferred category) else none := by
  obtain ⟨client, made, -⟩ := kexInitDefault_made noEntropy false []
  obtain ⟨server, made', -⟩ := kexInitDefault_made noEntropy true (List.replicate 8 true ++ [false, false])
  obtain ⟨ok, chosen, after, exactly⟩ :=
    defaults_agree_exactly noEntropy noEntropy [] (List.replicate 8 true ++ [false, false]) [] _ _ client server made made'
  exact ⟨client, server, ok, chosen, after, made, made', exactly⟩

/-! What `session_set_keys` makes of these names. -/

/-- The arguments of one installation: the names as negotiated, the material with its length. -/
def chosenArgs (cipher mac iv key macKey : List UInt8) : KeyArgs :=
  { cipherName := some (nameOf cipher), iv := some iv, ivLen := iv.length, key := some key, keyLen := key.length
    macName := some (nameOf mac), macKey := some macKey, macKeyLen := macKey.length }

/-- Material of the right sizes under these names is accepted, for every direction, and
leaves it with a MAC. -/
def Installs (cipher mac : List UInt8) : Prop :=
  ∃ keyBits, cipherBits (nameOf cipher) = some keyBits ∧
    ∀ (d : SshDirection) (iv key macKey : List UInt8), iv.length = SSH_CIPHER_BLOCK → key.length = keyBits / 8 →
      0 < macKey.length → macKey.length ≤ SSH_MAC_KEY_MAX →
      ∃ t, install (chosenArgs cipher mac iv key macKey) d = .ok () t ∧ t.macKeyLen.val = macKey.length

theorem installMac_hmac {macName : String} (hmac : macName = "hmac-sha2-256") (d : SshDirection) {macKey : List UInt8}
    (positive : 0 < macKey.length) (atMost : macKey.length ≤ SSH_MAC_KEY_MAX) :
    ∃ t, installMac macName (some macKey) macKey.length d = .ok () t ∧ t.macKeyLen.val = macKey.length := by
  unfold installMac
  rw [if_pos hmac]
  have fits : ¬(macKey.length = 0 ∨ macKey.length > SSH_MAC_KEY_MAX) := by omega
  simp only [dif_neg fits]
  exact ⟨_, rfl, rfl⟩

theorem known_installs {cipher mac : List UInt8} (knownCipher : cipher ∈ known .cipherC2s) (knownMac : mac ∈ known .macC2s) :
    Installs cipher mac := by
  have bits : ∃ keyBits, cipherBits (nameOf cipher) = some keyBits := by
    have both : ∀ name ∈ known .cipherC2s, (cipherBits (nameOf name)).isSome := by decide +kernel
    exact Option.isSome_iff_exists.mp (both cipher knownCipher)
  have hmac : nameOf mac = "hmac-sha2-256" := by
    have only : ∀ name ∈ known .macC2s, nameOf name = "hmac-sha2-256" := by decide +kernel
    exact only mac knownMac
  obtain ⟨keyBits, size⟩ := bits
  refine ⟨keyBits, size, fun d iv key macKey ivLen keyLen positive atMost => ?_⟩
  have accepted : CipherAccepted (chosenArgs cipher mac iv key macKey) keyBits iv key := ⟨size, rfl, ivLen, rfl, keyLen⟩
  rw [install_accepted accepted rfl]
  exact installMac_hmac hmac _ positive atMost

/-- One end started from the default proposal, whatever the entropy source and the allocator
answered there, and the other end has offered anything at all: an algorithm that the two agree
on is one of the default names, and what they have agreed on can be installed in either
direction and comes with a MAC. -/
theorem default_choice_installs (rand : (n : Nat) → Option (Vector UInt8 n)) (isServer : Bool) (heap left : Heap)
    (own c s : SshKexInit) (made : kexInitDefault rand isServer heap = .ok own left) (party : c = own ∨ s = own)
    (before after : Heap) (chosen : SshKexProposal) (agreed : kexNegotiate c s before = .ok (true, chosen) after) :
    (∀ category, ∃ name ∈ known category, selected chosen category = some name) ∧
      (∃ cipher mac, chosen.cipherC2s = some cipher ∧ chosen.macC2s = some mac ∧ Installs cipher mac) ∧
      ∃ cipher mac, chosen.cipherS2c = some cipher ∧ chosen.macS2c = some mac ∧ Installs cipher mac := by
  obtain ⟨kex, returned, defaulted, -⟩ := kexInitDefault_made rand isServer heap
  rw [returned] at made
  cases made
  obtain ⟨complete, rfl⟩ := kexNegotiate_agreed agreed
  have every := (complete_iff c s).mp complete
  have found (category : Category) : ∃ name ∈ known category, selected (commonProposal c s) category = some name := by
    obtain ⟨name, chosenName⟩ := every category
    refine ⟨name, common_known defaulted party chosenName, ?_⟩
    rw [← chosenName]
    cases category <;> rfl
  refine ⟨found, ?_, ?_⟩
  · obtain ⟨cipher, knownCipher, isCipher⟩ := found .cipherC2s
    obtain ⟨mac, knownMac, isMac⟩ := found .macC2s
    exact ⟨cipher, mac, isCipher, isMac, known_installs knownCipher knownMac⟩
  · obtain ⟨cipher, knownCipher, isCipher⟩ := found .cipherS2c
    obtain ⟨mac, knownMac, isMac⟩ := found .macS2c
    exact ⟨cipher, mac, isCipher, isMac, known_installs knownCipher knownMac⟩

/-- A default client without entropy, and a server with the same lists. -/
theorem default_choice_installs_same_lists :
    ∃ own chosen after, kexInitDefault noEntropy false [] = .ok own [] ∧ kexNegotiate own own [] = .ok (true, chosen) after ∧
      (∀ category, ∃ name ∈ known category, selected chosen category = some name) ∧
      (∃ cipher mac, chosen.cipherC2s = some cipher ∧ chosen.macC2s = some mac ∧ Installs cipher mac) ∧
      ∃ cipher mac, chosen.cipherS2c = some cipher ∧ chosen.macS2c = some mac ∧ Installs cipher mac := by
  obtain ⟨own, made, defaulted, -⟩ := kexInitDefault_made noEntropy false []
  have complete := (complete_default defaulted defaulted).mpr ⟨by decide, by decide⟩
  have agreed := kexNegotiate_exact own own []
  rw [if_pos ⟨complete, by simp⟩] at agreed
  exact ⟨own, _, _, made, agreed, default_choice_installs noEntropy false [] [] own own own made (Or.inl rfl) [] _ _ agreed⟩

end Coalesce.KexDefault
