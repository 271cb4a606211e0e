import Mathlib.Data.Int.Notation
import Mathlib.Data.Nat.Notation
import Mathlib.Logic.Basic
import Mathlib.Tactic.ByContra
import Veda.Lib.Run

/-! # Passwords and secrets

`authenticate` of `mstorage.d` for one account: the checks of the arguments, the use of a secret
for a new password, the request for a new secret and the login with a password. -/

namespace Veda.Mstorage.Authenticate

open Veda.Run

/-- `ResultCode`, as far as it is used here. -/
inductive ResultCode where
  | ok | failStore | authenticationFailed | emptyPassword | invalidPassword | invalidSecret
  | secretExpired | newPasswordIsEqualToOld | passwordExpired | tooManyRequests
deriving DecidableEq, Repr

/-! ## What is stored -/

/-- The individual that the search by login finds. `uri` is its own, `owner` that of the user. -/
structure User where
  uri : String
  owner : Option String
  login : Option String
  mailbox : Option String
  password : Option String
  usesCredential : Option String
deriving DecidableEq, Repr

/-- The first values of the predicates of a `v-s:Credential`. -/
structure Credential where
  password : Option String
  dateFrom : Option ℤ
  secret : Option String
  secretDateFrom : Option ℤ
deriving DecidableEq, Repr

structure Account where
  user : User
  credential : Credential
deriving DecidableEq, Repr

/-- The settings of the server. `icmp` compares logins without regard to case. -/
structure Config where
  passwordLifetime : ℤ
  icmp : String → String → ℤ

/-- A call of `authenticate`. An absent string is null. `candidate` says whether the search finds
the account, `ready` whether there is a storage, `userFound` whether the user is read, `accepted`
whether the storage accepts what the call puts, and `ticketResult` what it answers to a new ticket.
The clock is read twice, for the age of what is stored and for the date of what is put. -/
structure Call where
  login : Option String
  password : Option String
  secret : Option String
  candidate : Bool
  ready : Bool
  userFound : Bool
  accepted : Bool
  ticketResult : ResultCode
  nSecret : String
  now : ℤ
  later : ℤ
deriving DecidableEq, Repr

/-- The ticket that `create_new_ticket` makes. -/
structure Ticket where
  userLogin : Option String
  userUri : String
deriving DecidableEq, Repr

/-- The mail with a secret. -/
structure Mail where
  recipientMailbox : String
  messageBody : String
deriving DecidableEq, Repr

/-- What a call answers and leaves. `generated` is the secret that was generated and stored. -/
structure Outcome where
  result : ResultCode
  account : Account
  ticket : Option Ticket
  generated : Option String
  mail : Option Mail
deriving DecidableEq, Repr

/-- The call answers and does nothing. -/
def Outcome.only (result : ResultCode) (account : Account) : Outcome :=
  ⟨result, account, none, none, none⟩

@[simp] theorem only_account (result : ResultCode) (account : Account) :
    (Outcome.only result account).account = account := rfl

@[simp] theorem only_ticket (result : ResultCode) (account : Account) :
    (Outcome.only result account).ticket = none := rfl

@[simp] theorem only_generated (result : ResultCode) (account : Account) :
    (Outcome.only result account).generated = none := rfl

/-! ## The function -/

def emptySha256Hash : String := "e3b0c44298fc1c149afbf4c8996fb92427ae41e4649b934ca495991b7852b855"

/-- `==`, for which null is the empty string. -/
def Same (a b : Option String) : Prop := a.getD "" = b.getD ""

instance (a b : Option String) : Decidable (Same a b) := inferInstanceAs (Decidable (_ = _))

/-- `length`, in bytes. -/
def length (s : Option String) : ℕ := (s.getD "").utf8ByteSize

/-- The secret is there to be used: `secret !is null && secret.length > 5`. -/
def Presents (secret : Option String) : Prop := secret ≠ none ∧ 5 < length secret

instance (secret : Option String) : Decidable (Presents secret) :=
  inferInstanceAs (Decidable (_ ∧ _))

/-- The answer to arguments that are refused before anything is read. -/
def refusal (call : Call) : Option ResultCode :=
  if Same call.login none ∨ length call.login < 3 then some .authenticationFailed
  else if Presents call.secret ∧ Same call.password (some emptySha256Hash) then
    some .emptyPassword
  else if Presents call.secret ∧ (Same call.password none ∨ length call.password < 64) then
    some .invalidPassword
  else if call.secret ≠ none ∧ ¬ Same call.secret (some "?") ∧ length call.secret < 6 then
    some .invalidSecret
  else none

/-- The `v-s:owner` of a candidate that passes the checks of the loop. -/
def User.userId (user : User) (cfg : Config) (call : Call) : Option String :=
  match user.owner, user.login with
  | some userId, some userLogin =>
    if cfg.icmp userLogin (call.login.getD "") ≠ 0 then none
    else if call.userFound then some userId
    else none
  | _, _ => none

/-- Puts the credential, or leaves the account as it is. -/
def Account.put (account : Account) (call : Call) (credential : Credential) : Account :=
  if call.accepted then { account with credential } else account

/-- The account and the credential in memory: a user without `v-s:usesCredential` gets one that
takes over the password. -/
def Account.usesCredential (account : Account) (call : Call) : Account × Credential :=
  match account.user.usesCredential with
  | some _ => (account, account.credential)
  | none =>
    let credential : Credential := ⟨account.user.password, some call.now, none, none⟩
    let user := { account.user with
      usesCredential := some (account.user.uri ++ "-crdt"), password := none }
    (if call.accepted then ⟨user, credential⟩ else account, credential)

/-- `remove_secret`. The date of the secret stays. -/
def removeSecret (call : Call) (account : Account) (credential : Credential) : Account :=
  match credential.secret with
  | none => account
  | some _ => account.put call { credential with secret := none }

/-- `create_new_ticket`. -/
def createNewTicket (call : Call) (account : Account) (userId : String) : Outcome :=
  if call.ticketResult = .ok then ⟨.ok, account, some ⟨call.login, userId⟩, none, none⟩
  else .only call.ticketResult account

/-- The branch with a secret: a new password. -/
def updatePassword (call : Call) (account : Account) (credential : Credential) (userId : String) :
    Outcome :=
  match credential.secret with
  | none => .only .invalidSecret (removeSecret call account credential)
  | some oldSecret =>
    if ¬ Same call.secret (some oldSecret) then
      .only .invalidSecret (removeSecret call account credential)
    else if 12 * 60 * 60 < call.now - credential.secretDateFrom.getD 0 then
      .only .secretExpired account
    else if Same credential.password call.password then
      .only .newPasswordIsEqualToOld (removeSecret call account credential)
    else if Same call.password (some emptySha256Hash) then
      .only .emptyPassword (removeSecret call account credential)
    else
      let account := account.put call { credential with
        password := call.password, dateFrom := some call.later, secret := none }
      if call.accepted then createNewTicket call account userId
      else .only .authenticationFailed account

/-- `is_request_new_password`: the password is old, or a new secret is asked for. -/
def IsRequestNewPassword (cfg : Config) (call : Call) (credential : Credential) : Prop :=
  (0 < cfg.passwordLifetime ∧ cfg.passwordLifetime < call.now - credential.dateFrom.getD 0) ∨
    Same call.secret (some "?")

instance (cfg : Config) (call : Call) (credential : Credential) :
    Decidable (IsRequestNewPassword cfg call credential) :=
  inferInstanceAs (Decidable (_ ∨ _))

/-- The mail with the secret, where there is a mailbox. -/
def mailWithSecret (user : User) (nSecret : String) : Option Mail :=
  match user.mailbox with
  | none => none
  | some mailbox =>
    if 3 < mailbox.utf8ByteSize then some ⟨mailbox, "your secret code is " ++ nSecret⟩ else none

/-- The limit on requests is looked at where a secret is stored. -/
def TooManyRequests (call : Call) (credential : Credential) : Prop :=
  credential.secret ≠ none ∧ call.later - credential.secretDateFrom.getD 0 < 10 * 60

instance (call : Call) (credential : Credential) : Decidable (TooManyRequests call credential) :=
  inferInstanceAs (Decidable (_ ∧ _))

/-- The request for a new secret. -/
def requestNewPassword (call : Call) (account : Account) (credential : Credential) : Outcome :=
  if TooManyRequests call credential then .only .tooManyRequests account
  else
    let account := account.put call { credential with
      secret := some call.nSecret, secretDateFrom := some call.later }
    if call.accepted then
      ⟨.passwordExpired, account, none, some call.nSecret,
        mailWithSecret account.user call.nSecret⟩
    else .only .passwordExpired account

/-- The login with a password. Without success the loop over the candidates ends. -/
def login (call : Call) (account : Account) (credential : Credential) (userId : String) :
    Outcome :=
  if credential.password ≠ none ∧ call.password ≠ none ∧ 63 < length call.password ∧
      Same credential.password call.password then createNewTicket call account userId
  else .only .authenticationFailed account

/-- The body of the loop for a candidate that passed the checks. -/
def authenticateUser (cfg : Config) (call : Call) (account : Account) (userId : String) :
    Outcome :=
  let (account, credential) := account.usesCredential call
  if Presents call.secret then updatePassword call account credential userId
  else if IsRequestNewPassword cfg call credential then requestNewPassword call account credential
  else login call account credential userId

/-- The user id of the candidate that the call comes to. -/
def admitted (cfg : Config) (call : Call) (account : Account) : Option String :=
  if call.ready ∧ call.candidate then account.user.userId cfg call else none

/-- `authenticate`. -/
def authenticate (cfg : Config) (call : Call) (account : Account) : Outcome :=
  match refusal call with
  | some rc => .only rc account
  | none =>
    match admitted cfg call account with
    | none => .only .authenticationFailed account
    | some userId => authenticateUser cfg call account userId

/-- What a call leaves. -/
def step (cfg : Config) (call : Call) (account : Account) : Account :=
  (authenticate cfg call account).account

/-! ## What a call can do -/

section
variable {cfg : Config} {call : Call} {account : Account}

/-- The account has a credential of its own. -/
def Account.HasCredential (account : Account) : Prop := account.user.usesCredential ≠ none

instance (account : Account) : Decidable account.HasCredential :=
  inferInstanceAs (Decidable (_ ≠ _))

/-- The arguments are not refused, and the call comes to the account. -/
def Admitted (cfg : Config) (call : Call) (account : Account) : Prop :=
  refusal call = none ∧ admitted cfg call account ≠ none

instance (cfg : Config) (call : Call) (account : Account) : Decidable (Admitted cfg call account) :=
  inferInstanceAs (Decidable (_ ∧ _))

/-- The call changes the password. -/
def Changes (cfg : Config) (call : Call) (account : Account) : Prop :=
  (step cfg call account).credential.password ≠ account.credential.password

/-- The call generates a secret and stores it. -/
def Generates (cfg : Config) (call : Call) (account : Account) : Prop :=
  (authenticate cfg call account).generated ≠ none

/-- The call gets as far as comparing its secret with the stored one, and they differ. -/
def ComparesOther (cfg : Config) (call : Call) (account : Account) : Prop :=
  Admitted cfg call account ∧ Presents call.secret ∧ account.credential.secret ≠ none ∧
    call.secret ≠ account.credential.secret

/-- The call gets a new secret, or the answer that it asks too often. -/
def Asks (cfg : Config) (call : Call) (account : Account) : Prop :=
  Admitted cfg call account ∧ ¬ Presents call.secret ∧
    IsRequestNewPassword cfg call account.credential

instance (cfg : Config) (call : Call) (account : Account) : Decidable (Asks cfg call account) :=
  inferInstanceAs (Decidable (_ ∧ _))

/-- What an accepted call does to an account with a credential. -/
inductive Did (cfg : Config) (call : Call) (account : Account) : Outcome → Prop
  /-- Nothing is put. -/
  | nothing (result : ResultCode) (h : ¬ ComparesOther cfg call account)
      (hasks : Asks cfg call account → TooManyRequests call account.credential) :
      Did cfg call account (.only result account)
  /-- The stored secret is removed. -/
  | removed (result : ResultCode) (h : account.credential.secret ≠ none)
      (hasks : ¬ Asks cfg call account) :
      Did cfg call account
        (.only result { account with credential.secret := none })
  /-- The secret is the stored one, and the password becomes another. -/
  | changed (userId : String) (h : call.secret = account.credential.secret)
      (hsecret : call.secret ≠ none)
      (hage : call.now - account.credential.secretDateFrom.getD 0 ≤ 12 * 60 * 60)
      (hother : ¬ Same account.credential.password call.password)
      (hasks : ¬ Asks cfg call account) :
      Did cfg call account (createNewTicket call { account with credential := ⟨call.password,
        some call.later, none, account.credential.secretDateFrom⟩ } userId)
  /-- A secret is generated, and mailed where there is a mailbox. -/
  | generated (hasks : Asks cfg call account)
      (hmany : ¬ TooManyRequests call account.credential) :
      Did cfg call account ⟨.passwordExpired, { account with credential := { account.credential with
        secret := some call.nSecret, secretDateFrom := some call.later } }, none,
        some call.nSecret, mailWithSecret account.user call.nSecret⟩
  /-- A ticket for the password. -/
  | loggedIn (userId : String) (hsecret : call.secret = none)
      (hpassword : call.password = account.credential.password)
      (hlength : 63 < length call.password) (hasks : ¬ Asks cfg call account)
      (hage : 0 < cfg.passwordLifetime →
        call.now - account.credential.dateFrom.getD 0 ≤ cfg.passwordLifetime) :
      Did cfg call account (createNewTicket call account userId)

theorem same_some {a : Option String} {b : String} (h : a ≠ none) : Same a (some b) ↔ a = some b := by
  cases a with
  | none => exact absurd rfl h
  | some a => simp [Same]

theorem same_of_ne_none {a b : Option String} (ha : a ≠ none) (hb : b ≠ none) :
    Same a b ↔ a = b := by
  cases b with
  | none => exact absurd rfl hb
  | some b => exact same_some ha

theorem usesCredential_of_hasCredential (hcred : account.HasCredential) :
    account.usesCredential call = (account, account.credential) := by
  unfold Account.usesCredential
  cases h : account.user.usesCredential with
  | none => exact absurd h hcred
  | some _ => rfl

theorem put_of_accepted (haccept : call.accepted = true) (credential : Credential) :
    account.put call credential = { account with credential } := by
  simp [Account.put, haccept]

theorem removeSecret_of_accepted (haccept : call.accepted = true) :
    removeSecret call account account.credential = { account with credential.secret := none } := by
  unfold removeSecret
  cases hsecret : account.credential.secret with
  | none =>
    obtain ⟨user, password, dateFrom, secret, secretDateFrom⟩ := account
    cases hsecret
    rfl
  | some _ => exact put_of_accepted haccept _

/-- The branch with a secret. -/
theorem updatePassword_did (haccept : call.accepted = true) (hpresents : Presents call.secret)
    (userId : String) :
    Did cfg call account (updatePassword call account account.credential userId) := by
  have hasks : ¬ Asks cfg call account := fun h => h.2.1 hpresents
  unfold updatePassword
  cases hsecret : account.credential.secret with
  | none =>
    have hkept : removeSecret call account account.credential = account := by
      simp [removeSecret, hsecret]
    simp only [hkept]
    exact .nothing _ (fun h => h.2.2.1 hsecret) fun h => absurd h hasks
  | some oldSecret =>
    have hremoved (result : ResultCode) :
        Did cfg call account (.only result (removeSecret call account account.credential)) := by
      rw [removeSecret_of_accepted haccept]
      exact .removed result (by simp [hsecret]) hasks
    dsimp only
    split
    · exact hremoved _
    · rename_i hsame
      have hsame : call.secret = account.credential.secret := by
        rw [hsecret]
        exact (same_some hpresents.1).1 (not_not.1 hsame)
      split
      · exact .nothing _ (fun h => h.2.2.2 hsame) fun h => absurd h hasks
      · rename_i hage
        split
        · exact hremoved _
        · rename_i hother
          split
          · exact hremoved _
          · simp only [haccept, put_of_accepted]
            exact .changed userId hsame hpresents.1 (by omega) hother hasks

/-- The branch without a secret. -/
theorem request_did (haccept : call.accepted = true) (hasks : Asks cfg call account) :
    Did cfg call account (requestNewPassword call account account.credential) := by
  unfold requestNewPassword
  split
  · rename_i hmany
    exact .nothing _ (fun h => hasks.2.1 h.2.1) fun _ => hmany
  · rename_i hmany
    simp only [haccept, put_of_accepted]
    exact .generated hasks hmany

/-- The login. Arguments that pass the first checks have no secret here. -/
theorem login_did (hrefusal : refusal call = none) (hpresents : ¬ Presents call.secret)
    (hrequest : ¬ IsRequestNewPassword cfg call account.credential) (userId : String) :
    Did cfg call account (login call account account.credential userId) := by
  have hasks : ¬ Asks cfg call account := fun h => hrequest h.2.2
  unfold login
  split
  · rename_i h
    obtain ⟨hexist, hpassword, hlength, hsame⟩ := h
    refine .loggedIn userId ?_ ((same_of_ne_none hexist hpassword).1 hsame).symm hlength hasks ?_
    · by_contra hsecret
      have hshort : length call.secret < 6 := by
        by_contra hlong
        exact hpresents ⟨hsecret, by omega⟩
      have hquestion : ¬ Same call.secret (some "?") := fun h => hrequest (.inr h)
      simp only [refusal, hpresents, hquestion, hshort, false_and, ne_eq, hsecret, not_false_eq_true,
        true_and, if_false, if_true] at hrefusal
      split at hrefusal <;> cases hrefusal
    · intro hlifetime
      by_contra hage
      exact hrequest (.inl ⟨hlifetime, by omega⟩)
  · exact .nothing _ (fun h => hpresents h.2.1) fun h => absurd h hasks

theorem authenticate_did (cfg : Config) (call : Call) (hcred : account.HasCredential)
    (haccept : call.accepted = true) :
    Did cfg call account (authenticate cfg call account) := by
  unfold authenticate
  cases hrefusal : refusal call with
  | some rc =>
    refine .nothing _ (fun h => ?_) fun h => ?_
    · simp [h.1.1] at hrefusal
    · simp [h.1.1] at hrefusal
  | none =>
    cases hadmitted : admitted cfg call account with
    | none => exact .nothing _ (fun h => h.1.2 hadmitted) fun h => absurd hadmitted h.1.2
    | some userId =>
      have hadm : Admitted cfg call account := ⟨hrefusal, by simp [hadmitted]⟩
      simp only [authenticateUser, usesCredential_of_hasCredential hcred]
      split
      · exact updatePassword_did haccept ‹_› userId
      · rename_i hpresents
        split
        · exact request_did haccept ⟨hadm, hpresents, ‹_›⟩
        · exact login_did hrefusal hpresents ‹_› userId

end

end Veda.Mstorage.Authenticate
