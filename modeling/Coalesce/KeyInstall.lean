import Coalesce.Rekey

/-! What a refused key installation leaves behind. The arguments of the cipher are
checked before anything is written; those of the MAC are checked when the cipher state
of the direction has already been replaced. -/

namespace Coalesce.KeyInstall
open Library.CallResult Aes Session SessionExchange Rekey

/-- The arguments that pass every check of the cipher. -/
structure CipherAccepted (args : KeyArgs) (keyBits : Nat) (iv key : List UInt8) : Prop where
  name : args.cipherName.bind cipherBits = some keyBits
  iv : args.iv = some iv
  ivLen : args.ivLen = SSH_CIPHER_BLOCK
  key : args.key = some key
  keyLen : args.keyLen = keyBits / 8

/-- The arguments that the checks of the MAC refuse. -/
def MacRefused (macName : String) (macKey : Option (List UInt8)) (macKeyLen : Nat) : Prop :=
  macName = "hmac-sha2-256" ∧ (macKey = none ∨ macKeyLen = 0 ∨ macKeyLen > SSH_MAC_KEY_MAX) ∨
    macName ≠ "hmac-sha2-256" ∧ macName ≠ "none"

/-- The cipher arguments are accepted and the MAC arguments refused, on a direction whose
cipher is not already at the start of the keystream that the arguments name. -/
def Overwrites (args : KeyArgs) (d : SshDirection) : Prop :=
  ∃ keyBits iv key macName, CipherAccepted args keyBits iv key ∧ args.macName = some macName ∧
    MacRefused macName args.macKey args.macKeyLen ∧ d.ctr ≠ (aesCtrInit key keyBits iv).2

theorem cipherBits_cases {cipherName : String} {keyBits : Nat} (known : cipherBits cipherName = some keyBits) :
    keyBits = 128 ∨ keyBits = 256 := by
  unfold cipherBits at known
  split at known
  · exact Or.inl (Option.some.inj known).symm
  · split at known
    · exact Or.inr (Option.some.inj known).symm
    · exact absurd known (by simp)

/-- Both key sizes in use are sizes of AES. -/
theorem aesCtrInit_accepts {keyBits : Nat} (size : keyBits = 128 ∨ keyBits = 256) (key iv : List UInt8) :
    (aesCtrInit key keyBits iv).1 = true := by
  rcases size with rfl | rfl <;> rfl

theorem installMac_refused {macName : String} {macKey : Option (List UInt8)} {macKeyLen : Nat}
    (refused : MacRefused macName macKey macKeyLen) (d : SshDirection) :
    installMac macName macKey macKeyLen d = .error .fail d := by
  unfold installMac
  rcases refused with ⟨hmac, bad⟩ | ⟨other, named⟩
  · rw [if_pos hmac]
    cases macKey with
    | none => rfl
    | some key =>
      have length : macKeyLen = 0 ∨ macKeyLen > SSH_MAC_KEY_MAX := by simpa using bad
      simp only [dif_pos length, throw_apply]
  · rw [if_neg other, if_neg named]
    rfl

theorem installMac_accepted {macName : String} {macKey : Option (List UInt8)} {macKeyLen : Nat}
    (accepted : ¬MacRefused macName macKey macKeyLen) (d : SshDirection) :
    ∃ t, installMac macName macKey macKeyLen d = .ok () t := by
  unfold installMac
  by_cases hmac : macName = "hmac-sha2-256"
  · have good : ¬(macKey = none ∨ macKeyLen = 0 ∨ macKeyLen > SSH_MAC_KEY_MAX) :=
      fun bad => accepted (Or.inl ⟨hmac, bad⟩)
    rw [if_pos hmac]
    cases macKey with
    | none => exact absurd (Or.inl rfl) good
    | some key =>
      have length : ¬(macKeyLen = 0 ∨ macKeyLen > SSH_MAC_KEY_MAX) := fun bad => good (Or.inr bad)
      simp only [dif_neg length, modify_apply]
      exact ⟨_, rfl⟩
  · have named : macName = "none" := by
      by_contra other
      exact accepted (Or.inr ⟨hmac, other⟩)
    rw [if_neg hmac, if_pos named]
    exact ⟨_, rfl⟩

/-- Accepted cipher arguments: the MAC arguments are looked at with the new cipher state in place. -/
theorem install_accepted {args : KeyArgs} {keyBits : Nat} {iv key : List UInt8} {macName : String}
    (accepted : CipherAccepted args keyBits iv key) (named : args.macName = some macName) (d : SshDirection) :
    install args d =
      installMac macName args.macKey args.macKeyLen { d with ctr := (aesCtrInit key keyBits iv).2 } := by
  obtain ⟨cipherName, given, known⟩ := Option.bind_eq_some_iff.mp accepted.name
  have started := aesCtrInit_accepts (cipherBits_cases known) key iv
  unfold install sessionSetKeys
  rw [given, accepted.iv, accepted.key, named]
  simp only [known, installKeys, accepted.ivLen, accepted.keyLen, started, ne_eq, not_true_eq_false, decide_false]
  rfl

theorem installKeys_lengths {keyBits : Nat} {iv key : List UInt8} {ivLen keyLen : Nat} {macName : String}
    {macKey : Option (List UInt8)} {macKeyLen : Nat} (wrong : ¬(ivLen = SSH_CIPHER_BLOCK ∧ keyLen = keyBits / 8))
    (d : SshDirection) : installKeys keyBits iv ivLen key keyLen macName macKey macKeyLen d = .error .fail d := by
  unfold installKeys
  by_cases block : ivLen = SSH_CIPHER_BLOCK
  · have size : keyLen ≠ keyBits / 8 := fun size => wrong ⟨block, size⟩
    rw [decide_eq_false (not_not_intro block), decide_eq_true size]
    rfl
  · rw [decide_eq_true block]
    rfl

/-- Any other arguments are turned away at the door. -/
theorem install_turned_away {args : KeyArgs}
    (refused : ¬∃ keyBits iv key macName, CipherAccepted args keyBits iv key ∧ args.macName = some macName)
    (d : SshDirection) : install args d = .error .fail d := by
  unfold install sessionSetKeys
  cases hasName : args.cipherName with
  | none => rfl
  | some cipherName =>
    cases hasIv : args.iv with
    | none => rfl
    | some iv =>
      cases hasKey : args.key with
      | none => rfl
      | some key =>
        cases hasMac : args.macName with
        | none => rfl
        | some macName =>
          cases known : cipherBits cipherName with
          | none => simp only [known, throw_apply]
          | some keyBits =>
            have wrong : ¬(args.ivLen = SSH_CIPHER_BLOCK ∧ args.keyLen = keyBits / 8) := by
              intro lengths
              apply refused
              exact ⟨keyBits, iv, key, macName, ⟨by rw [hasName]; exact known, hasIv, lengths.1, hasKey, lengths.2⟩, hasMac⟩
            simp only [known]
            exact installKeys_lengths wrong d

/-- A failed installation leaves the direction alone, unless the MAC arguments were what
made it fail and the cipher state in place was another one than the arguments name. -/
theorem failure_changes_nothing_iff (args : KeyArgs) (d : SshDirection) :
    (∀ exit t, install args d = .error exit t → t = d) ↔ ¬Overwrites args d := by
  constructor
  · rintro unchanged ⟨keyBits, iv, key, macName, accepted, named, refused, differs⟩
    have failed := install_accepted accepted named d
    rw [installMac_refused refused] at failed
    have same := unchanged _ _ failed
    exact differs (congrArg SshDirection.ctr same).symm
  · intro kept exit t failed
    by_cases door : ∃ keyBits iv key macName, CipherAccepted args keyBits iv key ∧ args.macName = some macName
    · obtain ⟨keyBits, iv, key, macName, accepted, named⟩ := door
      rw [install_accepted accepted named] at failed
      by_cases refused : MacRefused macName args.macKey args.macKeyLen
      · have keyed : d.ctr = (aesCtrInit key keyBits iv).2 := by
          by_contra differs
          exact kept ⟨keyBits, iv, key, macName, accepted, named, refused, differs⟩
        rw [installMac_refused refused, ← keyed] at failed
        injection failed with _ same
        exact same.symm
      · obtain ⟨done, installed⟩ := installMac_accepted refused { d with ctr := (aesCtrInit key keyBits iv).2 }
        rw [installed] at failed
        contradiction
    · rw [install_turned_away door] at failed
      injection failed with _ same
      exact same.symm

/-- New AES keys with a MAC name that nobody offers. -/
def unknownMac : KeyArgs := { zeroKeys true with macName := some "hmac-sha1" }

/-- The refused installation rekeys the cipher of a direction in use. -/
theorem failure_rekeys_live : ¬∀ args d exit t, install args d = .error exit t → t = d := by
  intro claimed
  have accepted : CipherAccepted unknownMac 128 (List.replicate 16 0) (List.replicate 16 0) := ⟨rfl, rfl, rfl, rfl, rfl⟩
  have refused : MacRefused "hmac-sha1" unknownMac.macKey unknownMac.macKeyLen := Or.inr ⟨by decide, by decide⟩
  have failed := install_accepted accepted rfl live
  rw [installMac_refused refused] at failed
  have same := claimed unknownMac live _ _ failed
  have counters := congrArg (fun d => d.ctr.nonceCounter) same
  exact absurd counters (by decide)

end Coalesce.KeyInstall
