import NexusPool.Codec.Base58
import NexusPool.Server.Session

/-!
# The address of a login

The payload of an accepted login is the key of the account, and the address that the account is
for is what the payload is decoded to. The decoder passes over white space around the text and
over everything behind a NUL, so there are many payloads for an address. The one in base 58 is
the text of the address itself.
-/

namespace NexusPool

open Base58 Reactive World

/-- Logins are checked as `base58.h` does it, with any `SK256`. -/
@[reducible] def Platform.withAddressCheck (platform : Platform) (sk256 : Bytes → Uint256) :
    Platform :=
  { platform with isValidAddress := fun s => (NexusAddress.ofString sk256 s).isValid }

/-- The payload of a login that is accepted at this step: the miner is logged in with it, or it
is the key of a new account. -/
def acceptedLogin (o : Occurrence World Event Output) : Option Bytes :=
  match o.event with
  | .minerData i receiveBuffer =>
    ((loginOf receiveBuffer).bind (·.mData)).filter fun nxsAddress =>
      o.before.account i = none && (o.after.account i = some nxsAddress ||
        !o.before.registry.mAccountDb.hasKey nxsAddress &&
          o.after.registry.mAccountDb.hasKey nxsAddress)
  | _ => none

/-- The payload is the text of the address. -/
def Canonical (sk256 : Bytes → Uint256) (s : Bytes) : Prop :=
  (NexusAddress.ofString sk256 s).toString sk256 = some s

/-- No white space and no NUL. -/
def Unspaced (s : Bytes) : Prop := ∀ c ∈ s, isSpace c = false ∧ c ≠ 0

instance (sk256 : Bytes → Uint256) (s : Bytes) : Decidable (Canonical sk256 s) :=
  inferInstanceAs (Decidable (_ = _))

instance (s : Bytes) : Decidable (Unspaced s) := inferInstanceAs (Decidable (∀ c ∈ s, _))

/-- Two keys are for two addresses, and each is the text of its address. -/
structure OneAccountPerAddress (sk256 : Bytes → Uint256) (s t : Bytes) : Prop where
  canonical : Canonical sk256 s ∧ Canonical sk256 t
  distinct : s ≠ t → NexusAddress.ofString sk256 s ≠ NexusAddress.ofString sk256 t
  unspaced : Unspaced s ∧ Unspaced t

section Addresses

variable {sk256 : Bytes → Uint256} {s t : Bytes}

theorem Base58.IsBase58.unspaced (h : IsBase58 s) : Unspaced s := by
  intro c hc
  obtain ⟨hzero, hspace⟩ := not_isSpace_of_mem c (h c hc)
  exact ⟨hspace, hzero⟩

theorem Canonical.inj (hs : Canonical sk256 s) (ht : Canonical sk256 t)
    (heq : NexusAddress.ofString sk256 s = NexusAddress.ofString sk256 t) : s = t := by
  have htext := hs.symm.trans (congrArg (·.toString sk256) heq)
  exact Option.some.inj (htext.trans ht)

theorem oneAccountPerAddress_of_isValid (hs : (NexusAddress.ofString sk256 s).isValid)
    (ht : (NexusAddress.ofString sk256 t).isValid) :
    OneAccountPerAddress sk256 s t ↔ IsBase58 s ∧ IsBase58 t := by
  have hcanonical : Canonical sk256 s ∧ Canonical sk256 t ↔ IsBase58 s ∧ IsBase58 t :=
    and_congr (NexusAddress.toString_eq_self_iff hs) (NexusAddress.toString_eq_self_iff ht)
  constructor
  · intro h
    exact hcanonical.mp h.canonical
  · intro h
    obtain ⟨hcs, hct⟩ := hcanonical.mpr h
    exact ⟨⟨hcs, hct⟩, fun hne heq => hne (hcs.inj hct heq), h.1.unspaced, h.2.unspaced⟩

end Addresses

section Logins

variable [Platform]

theorem OpensAtMost.isValid_of_new {w w' : World} (h : OpensAtMost w w') {s : Bytes}
    (hbefore : ¬ w.registry.mAccountDb.hasKey s) (hafter : w'.registry.mAccountDb.hasKey s) :
    Platform.isValidAddress s := by
  rcases h with hsame | ⟨nxsAddress, hvalid, -, hopened⟩
  · rw [hsame] at hafter
    exact absurd hafter hbefore
  · rw [hopened, Database.hasKey_updateRecord, Bool.or_eq_true, decide_eq_true_eq] at hafter
    rcases hafter with rfl | hafter
    · exact hvalid
    · exact absurd hafter hbefore

theorem isValidAddress_of_acceptedLogin {history : History World Event Output} {w : World}
    (hrun : ServerRun history w) {o : Occurrence World Event Output} (ho : o ∈ history) {s : Bytes}
    (hs : acceptedLogin o = some s) : Platform.isValidAddress s := by
  have hsafe := sessionSafe_of_run hrun
  unfold acceptedLogin at hs
  split at hs
  · next i receiveBuffer hevent =>
    obtain ⟨hpayload, hs⟩ := Option.filter_eq_some_iff.mp hs
    obtain ⟨packet, hlogin, -⟩ := Option.bind_eq_some_iff.mp hpayload
    simp only [Bool.and_eq_true, Bool.or_eq_true, decide_eq_true_eq, Bool.not_eq_true'] at hs
    obtain ⟨hstranger, hlogged | ⟨hbefore, hafter⟩⟩ := hs
    · exact (hsafe.admitted i s (hsafe.constant o ho i s hlogged)).valid
    · have hrefuses := hsafe.strangers o ho i receiveBuffer hevent hstranger
      rw [hlogin] at hrefuses
      exact hrefuses.1.isValid_of_new (by simp [hbefore]) hafter
  · cases hs

end Logins

/-- The keys of two accepted logins are the texts of their addresses exactly if both are in
base 58. -/
theorem oneAccountPerAddress_iff (platform : Platform) (sk256 : Bytes → Uint256)
    {history : History World Event Output} {w : World}
    (hrun : @ServerRun (platform.withAddressCheck sk256) history w)
    {o o' : Occurrence World Event Output} (ho : o ∈ history) (ho' : o' ∈ history) {s t : Bytes}
    (hs : acceptedLogin o = some s) (ht : acceptedLogin o' = some t) :
    OneAccountPerAddress sk256 s t ↔ IsBase58 s ∧ IsBase58 t := by
  let _ := platform.withAddressCheck sk256
  exact oneAccountPerAddress_of_isValid (isValidAddress_of_acceptedLogin hrun ho hs)
    (isValidAddress_of_acceptedLogin hrun ho' ht)

/-! ### Two miners -/

section TwoMiners

def zeroHash : Bytes → Uint256 := fun _ => 0

def textOf (nVersion : UInt8) (vchData : Bytes) : Bytes :=
  (NexusAddress.toString zeroHash ⟨nVersion, vchData⟩).getD []

def pubkeyText : Bytes := textOf NexusAddress.pubkeyAddress (List.replicate 32 1)

def scriptText : Bytes := textOf NexusAddress.scriptAddress (List.replicate 32 2)

@[reducible] def Platform.decoding : Platform := Platform.plain.withAddressCheck zeroHash

attribute [local instance] Platform.decoding

def twoLogins (s t : Bytes) : List Event :=
  [.walletConnected, .minerConnected [1], .minerConnected [2],
    .minerData 0 (Packet.withData Packet.login s).wire,
    .minerData 1 (Packet.withData Packet.login t).wire]

theorem exists_twoLogins {s t : Bytes}
    (h : (trace World.step .fresh (twoLogins s t)).any fun r =>
      decide (r.1.filterMap acceptedLogin = [t, s])) :
    ∃ history w o o', ServerRun history w ∧ o ∈ history ∧ o' ∈ history ∧
      acceptedLogin o = some s ∧ acceptedLogin o' = some t := by
  obtain ⟨history, w, hrun, hp⟩ := exists_run_of_trace World.fresh_initial (twoLogins s t)
    (fun history => decide (history.filterMap acceptedLogin = [t, s])) h
  have haccepted := of_decide_eq_true hp
  obtain ⟨o, ho, hs⟩ := List.mem_filterMap.mp (show s ∈ history.filterMap acceptedLogin by
    simp [haccepted])
  obtain ⟨o', ho', ht⟩ := List.mem_filterMap.mp (show t ∈ history.filterMap acceptedLogin by
    simp [haccepted])
  exact ⟨history, w, o, o', hrun, ho, ho', hs, ht⟩

theorem twoAddresses_accepted : (trace World.step .fresh (twoLogins pubkeyText scriptText)).any
    fun r => decide (r.1.filterMap acceptedLogin = [scriptText, pubkeyText]) := by decide +kernel

theorem twoSpellings_accepted :
    (trace World.step .fresh (twoLogins pubkeyText (pubkeyText ++ [32]))).any fun r =>
      decide (r.1.filterMap acceptedLogin = [pubkeyText ++ [32], pubkeyText]) := by
  decide +kernel

theorem pubkeyText_isBase58 : IsBase58 pubkeyText := by decide +kernel

theorem scriptText_isBase58 : IsBase58 scriptText := by decide +kernel

theorem spaced_sameAddress : NexusAddress.ofString zeroHash (pubkeyText ++ [32]) =
    NexusAddress.ofString zeroHash pubkeyText := by decide +kernel

/-- Texts in base 58 for two addresses. -/
theorem twoAddresses_oneAccountPerAddress :
    OneAccountPerAddress zeroHash pubkeyText scriptText := by
  obtain ⟨history, w, o, o', hrun, ho, ho', hs, ht⟩ := exists_twoLogins twoAddresses_accepted
  apply (oneAccountPerAddress_iff Platform.plain zeroHash hrun ho ho' hs ht).mpr
  exact ⟨pubkeyText_isBase58, scriptText_isBase58⟩

/-- With a space behind it, the text of an address opens a second account for it. -/
theorem spaced_secondAccount : ¬ ∀ (platform : Platform) (sk256 : Bytes → Uint256) history w,
    @ServerRun (platform.withAddressCheck sk256) history w → ∀ o ∈ history, ∀ o' ∈ history, ∀ s t,
      acceptedLogin o = some s → acceptedLogin o' = some t → OneAccountPerAddress sk256 s t := by
  intro h
  obtain ⟨history, w, o, o', hrun, ho, ho', hs, ht⟩ := exists_twoLogins twoSpellings_accepted
  have hone := h Platform.plain zeroHash history w hrun o ho o' ho' _ _ hs ht
  exact hone.distinct (by simp) spaced_sameAddress.symm

end TwoMiners

end NexusPool
