import NexusPool.Ledger.DataRegistry
import NexusPool.Library.InputStream

/-!
# The lists of banned users on disk

The two lists are saved when the server stops, one entry a line, and read again when it starts.
The file keeps the entries, but `load` is given a copy of the list that it is to fill.
-/

namespace NexusPool

open FileInput

/-- The files by name, as far as they exist. -/
abbrev Files := String → Option Bytes

/-- The entries in the order in which the set is walked. Any order without repetitions is one. -/
abbrev BannedUsersType := List Bytes

namespace BannedPersisterFile

/-- An empty list leaves the file as it is. -/
def save (targetFile : String) (bannedList : BannedUsersType) (files : Files) : Files :=
  if bannedList ≠ [] then
    Function.update files targetFile (some (unlines 10 bannedList))
  else files

/-- `emplace` for each line of the file. The parameter is passed by value: the result is what the
copy holds when the function ends. -/
def load (files : Files) (sourceFile : String) (bannedList : BannedUsersType) : BannedUsersType :=
  if bannedList = [] then
    match files sourceFile with
    | none => bannedList
    | some content =>
      (getlines 10 [] content).foldl (fun bannedList line => bannedList.insert line) bannedList
  else bannedList

theorem mem_load (files : Files) (sourceFile : String) (entry : Bytes) :
    entry ∈ load files sourceFile [] ↔
      ∃ content, files sourceFile = some content ∧ entry ∈ getlines 10 [] content := by
  have hinsert : ∀ (lines : List Bytes) (l : BannedUsersType),
      entry ∈ lines.foldl (fun l line => l.insert line) l ↔ entry ∈ lines ∨ entry ∈ l := by
    intro lines
    induction lines with
    | nil => simp
    | cons line lines ih =>
      intro l
      rw [List.foldl_cons, ih, List.mem_insert_iff, List.mem_cons, ← or_assoc]
      exact or_congr_left or_comm
  rw [load, if_pos rfl]
  cases files sourceFile with
  | none => simp
  | some content => simp [hinsert]

/-- What the copy would hand back is the saved list, or what an older file holds under an empty
list. -/
theorem mem_load_save {bannedList : BannedUsersType} (h : ∀ entry ∈ bannedList, 10 ∉ entry)
    (file : String) (files : Files) (entry : Bytes) :
    entry ∈ load (save file bannedList files) file [] ↔
      entry ∈ bannedList ∨ bannedList = [] ∧ entry ∈ load files file [] := by
  by_cases hempty : bannedList = []
  · simp [save, hempty]
  · rw [save, if_pos hempty, mem_load, Function.update_self]
    simp [hempty, getlines_unlines h]

end BannedPersisterFile

namespace BannedUsers

def bannedAccountsSource : String := "account.ban"

def bannedIpAddressesSource : String := "ip.ban"

/-- A `Banned_users` just constructed. -/
def empty : BannedUsers := ⟨[], []⟩

def addBannedAccount (b : BannedUsers) (account : Bytes) : BannedUsers :=
  { b with accounts := account :: b.accounts }

/-- The persister is handed copies of the two lists, and nothing is made of them. -/
def loadBannedUsers (files : Files) (b : BannedUsers) : BannedUsers :=
  let _ := BannedPersisterFile.load files bannedAccountsSource b.accounts
  let _ := BannedPersisterFile.load files bannedIpAddressesSource b.ipAddresses
  b

def saveBannedUsers (b : BannedUsers) (files : Files) : Files :=
  BannedPersisterFile.save bannedIpAddressesSource b.ipAddresses
    (BannedPersisterFile.save bannedAccountsSource b.accounts files)

/-- The server starts with empty lists, whatever the files hold. -/
theorem load_eq (files : Files) : load = loadBannedUsers files empty := rfl

/-- The destructor of the registry saves the lists, and the next `init` reads the files. -/
def restarted (b : BannedUsers) (files : Files) : BannedUsers :=
  loadBannedUsers (b.saveBannedUsers files) empty

/-- Both questions have the same answer for every string. -/
structure SameBans (b b' : BannedUsers) : Prop where
  accounts : ∀ account, b'.isAccountBanned account = b.isAccountBanned account
  ipAddresses : ∀ ipAddress, b'.isIpAddressBanned ipAddress = b.isIpAddressBanned ipAddress

/-- Only a server that has banned nobody has the same bans after a restart. -/
theorem restarted_sameBans_iff (b : BannedUsers) (files : Files) :
    SameBans b (b.restarted files) ↔ b.accounts = [] ∧ b.ipAddresses = [] := by
  have hnone : ∀ l : List Bytes, (∀ s, ([] : List Bytes).contains s = l.contains s) ↔ l = [] := by
    intro l
    constructor
    · intro h
      refine List.eq_nil_iff_forall_not_mem.mpr fun s hs => ?_
      have hcontains := (h s).trans (List.contains_iff_mem.mpr hs)
      cases hcontains
    · rintro rfl _
      rfl
  rw [← hnone b.accounts, ← hnone b.ipAddresses]
  exact ⟨fun h => ⟨h.accounts, h.ipAddresses⟩, fun h => ⟨h.1, h.2⟩⟩

/-- One account is banned, and no file is there yet. -/
theorem account_forgotten : ¬ ∀ (b : BannedUsers) (files : Files),
    (∀ account ∈ b.accounts, 10 ∉ account) → (∀ ipAddress ∈ b.ipAddresses, 10 ∉ ipAddress) →
      SameBans b (b.restarted files) := by
  intro h
  have hbanned := (h (empty.addBannedAccount [65]) (fun _ => none) (by decide)
    (by decide)).accounts [65]
  cases hbanned

end BannedUsers

end NexusPool
