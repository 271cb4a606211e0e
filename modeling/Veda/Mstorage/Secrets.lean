import Mathlib.Data.List.Induction
import Veda.Mstorage.Authenticate

/-! # Histories of secrets

A secret is stored by the call that generates it, and stays as long as calls leave the password and
compare no other secret with it. -/

namespace Veda.Mstorage.Authenticate

open Veda.Run

variable {cfg : Config} {call : Call} {account : Account}

/-- The call leaves the password and the secret, and compares no other secret with the stored
one. -/
structure Quiet (cfg : Config) (call : Call) (account : Account) : Prop where
  generates : ¬ Generates cfg call account
  changes : ¬ Changes cfg call account
  compares : ¬ ComparesOther cfg call account

/-- The secret is that of the latest call that generated one, at this time, and all calls since
then were quiet. A secret that is stored before the first call was generated at its date. -/
def Current (cfg : Config) (account : Account) (history : List Call) (secret : String) (time : ℤ) :
    Prop :=
  (account.credential.secret = some secret ∧ account.credential.secretDateFrom.getD 0 = time ∧
    Along (step cfg) (Quiet cfg) account history) ∨
  ∃ before call between, history = before ++ call :: between ∧
    (authenticate cfg call (run (step cfg) account before)).generated = some secret ∧
    call.later = time ∧
    Along (step cfg) (Quiet cfg) (run (step cfg) account (before ++ [call])) between

/-- The call has no secret, and its password is the stored one, long enough and not too old. -/
structure LogsIn (cfg : Config) (call : Call) (account : Account) : Prop where
  secret : call.secret = none
  password : call.password = account.credential.password
  length : 63 < length call.password
  age : 0 < cfg.passwordLifetime →
    call.now - account.credential.dateFrom.getD 0 ≤ cfg.passwordLifetime

/-! ## One call -/

@[simp] theorem createNewTicket_account (userId : String) :
    (createNewTicket call account userId).account = account := by
  unfold createNewTicket
  split <;> rfl

@[simp] theorem createNewTicket_generated (userId : String) :
    (createNewTicket call account userId).generated = none := by
  unfold createNewTicket
  split <;> rfl

namespace Did

variable {o : Outcome}

theorem user (h : Did cfg call account o) : o.account.user = account.user := by
  cases h <;> simp

/-- A secret that is stored after the call was generated by it or was stored before. -/
theorem secret {secret : String} (h : Did cfg call account o)
    (hsecret : o.account.credential.secret = some secret) :
    (o.generated = some secret ∧ o.account.credential.secretDateFrom = some call.later) ∨
    (o.generated = none ∧ o.account.credential = account.credential ∧
      ¬ ComparesOther cfg call account) := by
  cases h with
  | nothing result hother => exact .inr ⟨rfl, rfl, hother⟩
  | removed => cases hsecret
  | changed => simp at hsecret
  | generated => exact .inl ⟨hsecret, rfl⟩
  | loggedIn userId hnone =>
    rw [createNewTicket_account, createNewTicket_generated]
    exact .inr ⟨rfl, rfl, fun h => h.2.1.1 hnone⟩

/-- The password becomes another with the stored secret, within 12 hours. -/
theorem changes (h : Did cfg call account o)
    (hchanges : o.account.credential.password ≠ account.credential.password) :
    ∃ secret, call.secret = some secret ∧ account.credential.secret = some secret ∧
      call.now - account.credential.secretDateFrom.getD 0 ≤ 12 * 60 * 60 := by
  cases h with
  | nothing => exact absurd rfl hchanges
  | removed => exact absurd rfl hchanges
  | changed userId hsecret hnone hage =>
    obtain ⟨secret, hsome⟩ := Option.ne_none_iff_exists'.1 hnone
    exact ⟨secret, hsome, hsecret.symm.trans hsome, hage⟩
  | generated => exact absurd rfl hchanges
  | loggedIn => exact absurd (by rw [createNewTicket_account]) hchanges

/-- A ticket is given to a new password or to the stored one. -/
theorem ticket (h : Did cfg call account o) (hticket : o.ticket ≠ none) :
    o.account.credential.password ≠ account.credential.password ∨ LogsIn cfg call account := by
  cases h with
  | nothing => exact absurd rfl hticket
  | removed => exact absurd rfl hticket
  | changed userId hsecret hnone hage hother =>
    rw [createNewTicket_account]
    exact .inl fun h => hother (by rw [Same, ← h])
  | generated => exact absurd rfl hticket
  | loggedIn userId hsecret hpassword hlength hasks hage =>
    exact .inr ⟨hsecret, hpassword, hlength, hage⟩

/-- A secret is generated for a call that asks for one and is let by the limit. -/
theorem generated_iff (h : Did cfg call account o) :
    o.generated.isSome = true ↔
      Asks cfg call account ∧ ¬ TooManyRequests call account.credential := by
  cases h with
  | nothing result hother hasks =>
    exact ⟨fun h => absurd h (by simp), fun h => absurd (hasks h.1) h.2⟩
  | removed result hsecret hasks => exact ⟨fun h => absurd h (by simp), fun h => absurd h.1 hasks⟩
  | changed userId hsecret hnone hage hother hasks =>
    rw [createNewTicket_generated]
    exact ⟨fun h => absurd h (by simp), fun h => absurd h.1 hasks⟩
  | generated hasks hmany => exact ⟨fun _ => ⟨hasks, hmany⟩, fun _ => rfl⟩
  | loggedIn userId hsecret hpassword hlength hasks =>
    rw [createNewTicket_generated]
    exact ⟨fun h => absurd h (by simp), fun h => absurd h.1 hasks⟩

/-- The date is that of the latest secret, also when that is removed. -/
theorem secretDateFrom (h : Did cfg call account o) :
    o.account.credential.secretDateFrom =
      if o.generated.isSome then some call.later else account.credential.secretDateFrom := by
  cases h <;> simp

end Did

theorem step_hasCredential (hcred : account.HasCredential) (haccept : call.accepted = true) :
    (step cfg call account).HasCredential := by
  unfold Account.HasCredential step
  rw [(authenticate_did cfg call hcred haccept).user]
  exact hcred

theorem run_hasCredential (cfg : Config) (hcred : account.HasCredential) {history : List Call}
    (haccept : ∀ call ∈ history, call.accepted = true) :
    (run (step cfg) account history).HasCredential := by
  induction history generalizing account with
  | nil => exact hcred
  | cons call history ih =>
    have hcall := haccept call (by simp)
    exact ih (step_hasCredential hcred hcall) fun c hc => haccept c (by simp [hc])

/-! ## Histories -/

theorem Current.quiet {history : List Call} {secret : String} {time : ℤ}
    (h : Current cfg account history secret time)
    (hcall : Quiet cfg call (run (step cfg) account history)) :
    Current cfg account (history ++ [call]) secret time := by
  obtain ⟨hsecret, htime, hquiet⟩ | ⟨before, generating, between, rfl, hsecret, htime, hquiet⟩ := h
  · exact .inl ⟨hsecret, htime, hquiet.concat hcall⟩
  · refine .inr ⟨before, generating, between ++ [call], by simp, hsecret, htime, ?_⟩
    refine hquiet.concat ?_
    rw [← run_append]
    simpa using hcall

/-- **The stored secret is the current one.** -/
theorem current_of_stored (hcred : account.HasCredential) {history : List Call}
    (haccept : ∀ call ∈ history, call.accepted = true) {secret : String}
    (hsecret : (run (step cfg) account history).credential.secret = some secret) :
    Current cfg account history secret
      ((run (step cfg) account history).credential.secretDateFrom.getD 0) := by
  induction history using List.reverseRecOn with
  | nil => exact .inl ⟨hsecret, rfl, trivial⟩
  | append_singleton history call ih =>
    have hbefore : ∀ c ∈ history, c.accepted = true := fun c hc => haccept c (by simp [hc])
    have hdid := authenticate_did cfg call
      (run_hasCredential cfg hcred hbefore) (haccept call (by simp))
    have hrun : run (step cfg) account (history ++ [call]) =
        (authenticate cfg call (run (step cfg) account history)).account := run_append ..
    rw [hrun] at hsecret ⊢
    obtain ⟨hgenerated, hdate⟩ | ⟨hgenerated, hkept, hother⟩ := hdid.secret hsecret
    · rw [hdate]
      exact .inr ⟨history, call, [], rfl, hgenerated, rfl, trivial⟩
    · rw [hkept] at hsecret ⊢
      refine (ih hbefore hsecret).quiet ⟨fun h => h hgenerated, fun h => h ?_, hother⟩
      rw [step, hkept]

/-- **A password is changed by the current secret**, within 12 hours, and a ticket is given with a
new password or for the stored one. -/
theorem password_changed_by_current (cfg : Config) (account : Account)
    (hcred : account.HasCredential) (history : List Call)
    (haccept : ∀ call ∈ history, call.accepted = true) (call : Call)
    (hcall : call.accepted = true) :
    (Changes cfg call (run (step cfg) account history) →
      ∃ secret time, call.secret = some secret ∧ Current cfg account history secret time ∧
        call.now - time ≤ 12 * 60 * 60) ∧
    ((authenticate cfg call (run (step cfg) account history)).ticket ≠ none →
      Changes cfg call (run (step cfg) account history) ∨
        LogsIn cfg call (run (step cfg) account history)) := by
  have hdid := authenticate_did cfg call (run_hasCredential cfg hcred haccept) hcall
  refine ⟨fun hchanges => ?_, hdid.ticket⟩
  obtain ⟨secret, hsecret, hstored, hage⟩ := hdid.changes hchanges
  exact ⟨secret, _, hsecret, current_of_stored hcred haccept hstored, hage⟩

def somePassword : String := "5e884898da28047151d0e56f8dc6292773603d0d6aabbdd62a11ef721d1542d8"

def someOtherPassword : String := "6b3a55e0261b0304143f805a24924d0c1c44524821305f31d9277843b8a10f4e"

/-- Passwords last for a day; logins are compared as they are. -/
def someConfig : Config := ⟨24 * 60 * 60, fun a b => if a = b then 0 else 1⟩

def someAccount : Account :=
  ⟨⟨"d:account", some "d:user", some "ann", some "ann@mail", none, some "d:credential"⟩,
    ⟨some somePassword, some 1000, none, none⟩⟩

/-- A call that comes to the account, with its stores accepted. -/
def someCall (password secret : Option String) (nSecret : String) (time : ℤ) : Call :=
  ⟨some "ann", password, secret, true, true, true, true, .ok, nSecret, time, time⟩

theorem password_changed_by_current_requested :
    ∃ secret time, some "123456" = some secret ∧
      Current someConfig someAccount [someCall none (some "?") "123456" 2000] secret time ∧
      2100 - time ≤ 12 * 60 * 60 :=
  (password_changed_by_current someConfig someAccount (by decide)
    [someCall none (some "?") "123456" 2000] (by decide)
    (someCall (some someOtherPassword) (some "123456") "" 2100) (by decide)).1 (by
      unfold Changes
      decide +kernel)

/-! ## The distance between two secrets -/

/-- The times at which the calls generate and store secrets. -/
def generations (cfg : Config) (account : Account) : List Call → List ℤ
  | [] => []
  | call :: calls =>
    let later := generations cfg (step cfg call account) calls
    if (authenticate cfg call account).generated.isSome then call.later :: later else later

/-- The clock does not go back, within a call and from one call to the next. -/
structure Clock (calls : List Call) : Prop where
  within : ∀ call ∈ calls, call.now ≤ call.later
  between : calls.Pairwise fun call call' => call.later ≤ call'.now

/-- A secret comes ten minutes after the earlier ones. -/
def Apart (times : List ℤ) : Prop := times.Pairwise fun time time' => 600 ≤ time' - time

/-- A call that asks for a secret while none is stored comes ten minutes after the earlier
secrets. -/
def AsksApart (cfg : Config) (account : Account) (calls : List Call) : Prop :=
  ∀ before call after, calls = before ++ call :: after →
    Asks cfg call (run (step cfg) account before) →
    (run (step cfg) account before).credential.secret = none →
    ∀ time ∈ generations cfg account before, 600 ≤ call.later - time

theorem generations_append {calls calls' : List Call} :
    generations cfg account (calls ++ calls') =
      generations cfg account calls ++ generations cfg (run (step cfg) account calls) calls' := by
  induction calls generalizing account with
  | nil => rfl
  | cons call calls ih =>
    simp only [List.cons_append, generations, run_cons, ih]
    split <;> rfl

theorem generations_singleton :
    generations cfg account [call] =
      if (authenticate cfg call account).generated.isSome then [call.later] else [] := rfl

theorem mem_generations {calls : List Call} {time : ℤ}
    (h : time ∈ generations cfg account calls) : ∃ call ∈ calls, call.later = time := by
  induction calls generalizing account with
  | nil => cases h
  | cons call calls ih =>
    simp only [generations] at h
    split at h
    · obtain rfl | h := List.mem_cons.1 h
      · exact ⟨call, by simp, rfl⟩
      · obtain ⟨c, hc, htime⟩ := ih h
        exact ⟨c, by simp [hc], htime⟩
    · obtain ⟨c, hc, htime⟩ := ih h
      exact ⟨c, by simp [hc], htime⟩

theorem Clock.of_append {calls calls' : List Call} (h : Clock (calls ++ calls')) : Clock calls :=
  ⟨fun call hcall => h.within call (by simp [hcall]), (List.pairwise_append.1 h.between).1⟩

theorem AsksApart.of_append {calls calls' : List Call}
    (h : AsksApart cfg account (calls ++ calls')) : AsksApart cfg account calls := by
  rintro before call after rfl
  exact h before call (after ++ calls') (by simp)

/-- The date of the stored secret is not before any time at which one was generated. -/
theorem le_secretDateFrom (hcred : account.HasCredential) {calls : List Call}
    (haccept : ∀ call ∈ calls, call.accepted = true) (hclock : Clock calls) {time : ℤ}
    (htime : time ∈ generations cfg account calls) :
    time ≤ (run (step cfg) account calls).credential.secretDateFrom.getD 0 := by
  induction calls using List.reverseRecOn with
  | nil => cases htime
  | append_singleton calls call ih =>
    have hbefore : ∀ c ∈ calls, c.accepted = true := fun c hc => haccept c (by simp [hc])
    have hdid := authenticate_did cfg call
      (run_hasCredential cfg hcred hbefore) (haccept call (by simp))
    rw [generations_append, generations_singleton] at htime
    rw [run_append, run_cons, run_nil, step, hdid.secretDateFrom]
    split at htime
    · rw [if_pos ‹_›, Option.getD_some]
      obtain htime | rfl := by simpa using htime
      · obtain ⟨c, hc, rfl⟩ := mem_generations htime
        have hnext := (List.pairwise_append.1 hclock.between).2.2 c hc call (by simp)
        have hwithin := hclock.within call (by simp)
        omega
      · exact Int.le_refl _
    · rw [if_neg ‹_›]
      exact ih hbefore hclock.of_append (by simpa using htime)

/-- A call that the limit lets generate a secret comes ten minutes after the earlier secrets, if it
does where no secret is stored. -/
theorem apart_of_asks (hcred : account.HasCredential) {calls : List Call}
    (haccept : ∀ call ∈ calls, call.accepted = true) (hclock : Clock (calls ++ [call]))
    (hasks : (run (step cfg) account calls).credential.secret = none →
      ∀ time ∈ generations cfg account calls, 600 ≤ call.later - time)
    (hmany : ¬ TooManyRequests call (run (step cfg) account calls).credential) :
    ∀ time ∈ generations cfg account calls, 600 ≤ call.later - time := by
  intro time htime
  by_cases hsecret : (run (step cfg) account calls).credential.secret = none
  · exact hasks hsecret time htime
  · have hdate : ¬ call.later -
        (run (step cfg) account calls).credential.secretDateFrom.getD 0 < 10 * 60 :=
      fun h => hmany ⟨hsecret, h⟩
    have hle := le_secretDateFrom hcred haccept hclock.of_append htime
    omega

/-- **The secrets of a run are ten minutes apart** exactly if every call that asks for one while
none is stored comes ten minutes after the earlier ones. -/
theorem secrets_apart_iff (cfg : Config) (account : Account) (hcred : account.HasCredential)
    (calls : List Call) (haccept : ∀ call ∈ calls, call.accepted = true) (hclock : Clock calls) :
    Apart (generations cfg account calls) ↔ AsksApart cfg account calls := by
  constructor
  · rintro h before call after rfl hasks hsecret time htime
    have hcall : call.accepted = true := haccept call (by simp)
    have hbefore : ∀ c ∈ before, c.accepted = true := fun c hc => haccept c (by simp [hc])
    have hdid := authenticate_did cfg call (run_hasCredential cfg hcred hbefore) hcall
    have hgenerates := hdid.generated_iff.2 ⟨hasks, fun hmany => hmany.1 hsecret⟩
    rw [generations_append, generations, if_pos hgenerates] at h
    exact (List.pairwise_append.1 h).2.2 time htime call.later (by simp)
  · intro h
    induction calls using List.reverseRecOn with
    | nil => exact .nil
    | append_singleton calls call ih =>
      have hbefore : ∀ c ∈ calls, c.accepted = true := fun c hc => haccept c (by simp [hc])
      rw [generations_append, generations_singleton]
      split
      · rename_i hgenerates
        refine List.pairwise_append.2 ⟨ih hbefore hclock.of_append h.of_append, by simp, ?_⟩
        simp only [List.mem_singleton, forall_eq]
        obtain ⟨hasks, hmany⟩ := ((authenticate_did cfg call (run_hasCredential cfg hcred hbefore)
          (haccept call (by simp))).generated_iff).1 hgenerates
        exact apart_of_asks hcred hbefore hclock (h calls call [] rfl hasks) hmany
      · simpa using ih hbefore hclock.of_append h.of_append

theorem asksApart_requested :
    AsksApart someConfig someAccount
      [someCall none (some "?") "123456" 2000, someCall none (some "?") "234567" 2600] :=
  (secrets_apart_iff someConfig someAccount (by decide) _ (by decide)
    ⟨by decide, by decide⟩).1 (by unfold Apart; decide +kernel)

/-- A wrong secret removes the stored one, and with it the limit. -/
theorem secrets_not_apart :
    ∃ calls : List Call, (∀ call ∈ calls, call.accepted = true) ∧ Clock calls ∧
      ¬ Apart (generations someConfig someAccount calls) :=
  ⟨[someCall none (some "?") "123456" 2000,
      someCall (some someOtherPassword) (some "654321") "" 2010,
      someCall none (some "?") "234567" 2020],
    by decide, ⟨by decide, by decide⟩, by unfold Apart; decide +kernel⟩

end Veda.Mstorage.Authenticate
