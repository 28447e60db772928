import Mathlib.Data.List.TakeWhile
import Runbook.Proofs.Calls
import Runbook.Proofs.Texts

/-!
# `Proofs.Addresses` — where an agent is called

The id of an agent is an absolute address, a path from the base address, or a name under the agent path. The rules for
the three are stated here by what the texts are put together from; an address under the base address is put together
with exactly one slash at the joint, whatever slashes the two parts bring along. By the rules an id has one address.

What is computed is compared with them. It asks twice whether an id is an absolute address, and the first time looks
at four letters only. An id that has these letters and is no absolute address is a name by the rules, but is looked for
directly under the base address. It is called at a wrong place then, wherever agents have a path of their own. On all
other ids the address is the one of the rules, and there the call goes.

## Contents
- **Slashes.** `slashes`, and a text taken apart where its slashes end.
- **Joints.** `Joint`, and `joint_iff`.
- **Absolute addresses.** `Absolute` and `Rooted`; `joint_join` and `absolute_under`.
- **Agents.** `IsAgentUrl`, the rules; `Lookalike`, where they are missed; `isAgentUrl_agentUrl` and `lookalike_astray`.
- **Calls.** `callAgent_makes`, and the theorem on calls and their addresses.
-/

namespace Runbook

namespace Address

/-! ## Slashes -/

/-- A text of nothing but slashes. -/
def slashes (n : Nat) : String := String.ofList (List.replicate n '/')

theorem exists_slashes (cs : List Char) : ∃ n, cs = List.replicate n '/' ++ cs.dropWhile (· = '/') := by
  refine ⟨(cs.takeWhile (· = '/')).length, ?_⟩
  have hrun : cs.takeWhile (· = '/') = List.replicate (cs.takeWhile (· = '/')).length '/' :=
    List.eq_replicate_of_mem fun c hc => of_decide_eq_true (List.mem_takeWhile_imp (p := (· = '/')) hc)
  rw [← hrun, List.takeWhile_append_dropWhile]

theorem head?_dropWhile_slashes (cs : List Char) : (cs.dropWhile (· = '/')).head? ≠ some '/' := by
  intro h
  have hhead := List.head?_dropWhile_not (· = '/') cs
  rw [h] at hhead
  exact absurd hhead (by simp)

theorem dropWhile_slashes {rest : List Char} (h : rest.head? ≠ some '/') (n : Nat) :
    (List.replicate n '/' ++ rest).dropWhile (· = '/') = rest := by
  refine (Text.span_run (by simp) fun c hc => ?_).2
  rw [decide_eq_false_iff_not]
  rintro rfl
  exact h hc

/-- Every path is slashes and a rest that begins with none. -/
theorem exists_leadingSlashes (path : String) :
    ∃ n rest, rest.toList.head? ≠ some '/' ∧ path = slashes n ++ rest := by
  obtain ⟨n, hn⟩ := exists_slashes path.toList
  refine ⟨n, withoutLeadingSlashes path, ?_, String.toList_injective ?_⟩
  · rw [withoutLeadingSlashes, String.toList_ofList]
    exact head?_dropWhile_slashes _
  · rw [String.toList_append, slashes, withoutLeadingSlashes, String.toList_ofList, String.toList_ofList]
    exact hn

/-- Every base address is a stem that ends in no slash, and slashes. -/
theorem exists_trailingSlashes (base : String) :
    ∃ stem n, stem.toList.getLast? ≠ some '/' ∧ base = stem ++ slashes n := by
  obtain ⟨n, hn⟩ := exists_slashes base.toList.reverse
  refine ⟨withoutTrailingSlashes base, n, ?_, String.toList_injective ?_⟩
  · rw [withoutTrailingSlashes, String.toList_ofList, List.getLast?_reverse]
    exact head?_dropWhile_slashes _
  · rw [String.toList_append, slashes, withoutTrailingSlashes, String.toList_ofList, String.toList_ofList]
    simpa using congrArg List.reverse hn

theorem withoutLeadingSlashes_append {rest : String} (h : rest.toList.head? ≠ some '/') (n : Nat) :
    withoutLeadingSlashes (slashes n ++ rest) = rest := by
  rw [withoutLeadingSlashes, String.toList_append, slashes, String.toList_ofList, dropWhile_slashes h,
    String.ofList_toList]

theorem withoutTrailingSlashes_append {stem : String} (h : stem.toList.getLast? ≠ some '/') (n : Nat) :
    withoutTrailingSlashes (stem ++ slashes n) = stem := by
  have hhead : stem.toList.reverse.head? ≠ some '/' := by rwa [List.head?_reverse]
  rw [withoutTrailingSlashes, String.toList_append, slashes, String.toList_ofList, List.reverse_append,
    List.reverse_replicate, dropWhile_slashes hhead, List.reverse_reverse, String.ofList_toList]

/-! ## Joints -/

/-- **A path under a base address, with exactly one slash at the joint**: whatever slashes stand at the end of the base
    and at the beginning of the path, one takes their place. -/
inductive Joint : String → String → String → Prop where
  | mk {stem rest : String} (m n : Nat) (hstem : stem.toList.getLast? ≠ some '/')
      (hrest : rest.toList.head? ≠ some '/') :
      Joint (stem ++ slashes m) (slashes n ++ rest) (stem ++ "/" ++ rest)

theorem joint_iff {base path url : String} :
    Joint base path url ↔ url = withoutTrailingSlashes base ++ "/" ++ withoutLeadingSlashes path := by
  constructor
  · rintro ⟨m, n, hstem, hrest⟩
    rw [withoutTrailingSlashes_append hstem, withoutLeadingSlashes_append hrest]
  · obtain ⟨stem, m, hstem, rfl⟩ := exists_trailingSlashes base
    obtain ⟨n, rest, hrest, rfl⟩ := exists_leadingSlashes path
    rw [withoutTrailingSlashes_append hstem, withoutLeadingSlashes_append hrest]
    rintro rfl
    exact .mk m n hstem hrest

theorem Joint.unique {base path url url' : String} (h : Joint base path url) (h' : Joint base path url') : url = url' :=
  (joint_iff.mp h).trans (joint_iff.mp h').symm

/-! ## Absolute addresses -/

/-- An absolute address. -/
def Absolute (s : String) : Prop := ∃ rest, s = "http://" ++ rest ∨ s = "https://" ++ rest

/-- A path from the base address. -/
def Rooted (s : String) : Prop := ∃ rest, s = "/" ++ rest

theorem isAbsolute_iff {s : String} : isAbsolute s = true ↔ Absolute s := by
  rw [isAbsolute, Bool.or_eq_true, Text.startsWith_iff, Text.startsWith_iff, ← exists_or]
  rfl

instance (s : String) : Decidable (Absolute s) := decidable_of_iff _ isAbsolute_iff

instance (s : String) : Decidable (Rooted s) := decidable_of_iff _ Text.startsWith_iff

theorem Absolute.http {s : String} (h : Absolute s) : ∃ rest, s = "http" ++ rest := by
  obtain ⟨rest, rfl | rfl⟩ := h
  · exact ⟨"://" ++ rest, by rw [← String.append_assoc]; rfl⟩
  · exact ⟨"s://" ++ rest, by rw [← String.append_assoc]; rfl⟩

theorem not_rooted_of_http {s : String} (h : ∃ rest, s = "http" ++ rest) : ¬ Rooted s := by
  obtain ⟨rest, rfl⟩ := h
  rintro ⟨rest', h⟩
  simpa using congrArg (fun s => s.toList.head?) h

theorem join_of_absolute {base path : String} (h : Absolute path) : join base path = path :=
  if_pos (isAbsolute_iff.mpr h)

theorem joint_join {base path : String} (h : ¬ Absolute path) : Joint base path (join base path) :=
  joint_iff.mpr (if_neg (mt isAbsolute_iff.mp h))

/-- In a text with two slashes at its end and none before, behind a slash stands nothing or the other one. -/
theorem slash_of_scheme {name before after : List Char} (hname : '/' ∉ name)
    (h : name ++ ['/', '/'] = before ++ '/' :: after) : after = [] ∨ after = ['/'] := by
  rcases List.append_eq_append_iff.mp h with ⟨between, rfl, hend⟩ | ⟨between, rfl, hend⟩
  · cases between with
    | nil => exact .inr (by simpa using hend.symm)
    | cons c between =>
      cases between with
      | nil => exact .inl (List.cons.inj (List.cons.inj hend).2).2.symm
      | cons c' between => simp at hend
  · cases between with
    | nil => exact .inr (by simpa using hend)
    | cons c between =>
      obtain ⟨rfl, -⟩ : '/' = c ∧ _ := by simpa using hend
      exact absurd (by simp) hname

/-- A scheme in front of what stands under a path stands in front of the path and the slash behind it. -/
theorem scheme_of_under {path agent rest : String} (name : String) (hname : '/' ∉ name.toList)
    (hagent : ¬ Rooted agent) (h : path ++ "/" ++ agent = name ++ "//" ++ rest) :
    ∃ rest', path ++ "/" = name ++ "//" ++ rest' := by
  have hchars : path.toList ++ ['/'] ++ agent.toList = name.toList ++ ['/', '/'] ++ rest.toList := by
    simpa using congrArg String.toList h
  rcases List.append_eq_append_iff.mp hchars with ⟨after, hafter, htail⟩ | ⟨more, hmore, -⟩
  · -- the slash behind the path lies within the scheme, so that it is the last one or `agent` begins with the last one
    refine ⟨"", String.toList_injective ?_⟩
    rw [List.append_assoc] at hafter
    rcases slash_of_scheme hname hafter with rfl | rfl
    · simpa using hafter.symm
    · exact absurd ⟨rest, String.toList_injective (by simpa using htail)⟩ hagent
  · refine ⟨String.ofList more, String.toList_injective ?_⟩
    simpa using hmore

/-- Whether what stands under a path is an absolute address is up to the path. -/
theorem absolute_under {path agent : String} (h : ¬ Rooted agent) :
    Absolute (path ++ "/" ++ agent) ↔ Absolute (path ++ "/") := by
  constructor
  · rintro ⟨rest, hhttp | hhttps⟩
    · obtain ⟨rest', hrest⟩ := scheme_of_under "http:" (by decide) h hhttp
      exact ⟨rest', .inl hrest⟩
    · obtain ⟨rest', hrest⟩ := scheme_of_under "https:" (by decide) h hhttps
      exact ⟨rest', .inr hrest⟩
  · rintro ⟨rest, hrest⟩
    refine ⟨rest ++ agent, ?_⟩
    rw [← String.append_assoc, ← String.append_assoc]
    exact hrest.imp (congrArg (· ++ agent)) (congrArg (· ++ agent))

/-! ## Agents -/

/-- **The address of an agent**, by the form of its id. -/
structure IsAgentUrl (s : DispatchSettings) (agent url : String) : Prop where
  /-- An id that is an absolute address is used unchanged. -/
  absolute : Absolute agent → url = agent
  /-- An id that begins with a slash stands directly under the base address. -/
  rooted : Rooted agent → Joint s.baseUrl agent url
  /-- Every other id stands under the agent path, and with it under the base address, -/
  named : ¬ Absolute agent → ¬ Rooted agent → ¬ Absolute (s.agentPath ++ "/") →
    Joint s.baseUrl (s.agentPath ++ "/" ++ agent) url
  /-- unless the agent path, with the slash behind it, is an absolute address itself. -/
  elsewhere : ¬ Absolute agent → ¬ Rooted agent → Absolute (s.agentPath ++ "/") →
    url = s.agentPath ++ "/" ++ agent

/-- An id that begins like an absolute address and is none. -/
def Lookalike (agent : String) : Prop := (∃ rest, agent = "http" ++ rest) ∧ ¬ Absolute agent

instance (agent : String) : Decidable (Lookalike agent) :=
  decidable_of_iff (agent.startsWith "http" = true ∧ ¬ Absolute agent) (and_congr_left' Text.startsWith_iff)

variable {s : DispatchSettings} {agent : String}

theorem IsAgentUrl.unique {url url' : String} (h : IsAgentUrl s agent url) (h' : IsAgentUrl s agent url') :
    url = url' := by
  by_cases habs : Absolute agent
  · rw [h.absolute habs, h'.absolute habs]
  by_cases hroot : Rooted agent
  · exact (h.rooted hroot).unique (h'.rooted hroot)
  by_cases hpath : Absolute (s.agentPath ++ "/")
  · rw [h.elsewhere habs hroot hpath, h'.elsewhere habs hroot hpath]
  · exact (h.named habs hroot hpath).unique (h'.named habs hroot hpath)

/-- An id that begins with a slash or with the four letters is joined to the base address. -/
theorem agentUrl_of_given (h : Rooted agent ∨ ∃ rest, agent = "http" ++ rest) :
    agentUrl s agent = join s.baseUrl agent :=
  if_pos (h.imp Text.startsWith_iff.mpr Text.startsWith_iff.mpr)

theorem agentUrl_of_named (hroot : ¬ Rooted agent) (hhttp : ¬ ∃ rest, agent = "http" ++ rest) :
    agentUrl s agent = join s.baseUrl (s.agentPath ++ "/" ++ agent) :=
  if_neg (mt (Or.imp Text.startsWith_iff.mp Text.startsWith_iff.mp) (not_or.mpr ⟨hroot, hhttp⟩))

theorem joint_of_lookalike (h : Lookalike agent) : Joint s.baseUrl agent (agentUrl s agent) := by
  rw [agentUrl_of_given (.inr h.1)]
  exact joint_join h.2

/-- **What is computed is the address of the agent**, unless the id is a lookalike. -/
theorem isAgentUrl_agentUrl (h : ¬ Lookalike agent) : IsAgentUrl s agent (agentUrl s agent) where
  absolute habs := by rw [agentUrl_of_given (.inr habs.http), join_of_absolute habs]
  rooted hroot := by
    rw [agentUrl_of_given (.inl hroot)]
    exact joint_join fun habs => not_rooted_of_http habs.http hroot
  named habs hroot hpath := by
    rw [agentUrl_of_named hroot fun hhttp => h ⟨hhttp, habs⟩]
    exact joint_join (mt (absolute_under hroot).mp hpath)
  elsewhere habs hroot hpath := by
    rw [agentUrl_of_named hroot fun hhttp => h ⟨hhttp, habs⟩, join_of_absolute ((absolute_under hroot).mpr hpath)]

/-- An id has a longer address under a path that is more than slashes. -/
theorem length_lt_of_path (agent : String) {path : String} (h : ∃ c ∈ path.toList, c ≠ '/') :
    (withoutLeadingSlashes agent).toList.length < (withoutLeadingSlashes (path ++ "/" ++ agent)).toList.length := by
  have hpath : (path.toList.dropWhile (· = '/')).isEmpty = false := by
    simpa [List.dropWhile_eq_nil_iff] using h
  have hunder : (path ++ "/" ++ agent).toList.dropWhile (· = '/')
      = path.toList.dropWhile (· = '/') ++ '/' :: agent.toList := by
    simp [List.dropWhile_append, hpath]
  have hle : (agent.toList.dropWhile (· = '/')).length ≤ agent.toList.length := List.length_dropWhile_le ..
  rw [withoutLeadingSlashes, withoutLeadingSlashes, String.toList_ofList, String.toList_ofList, hunder,
    List.length_append, List.length_cons]
  omega

/-- **A lookalike has another address than the one that is computed**, wherever agents have a path of their own under
    the base address. -/
theorem lookalike_astray (h : Lookalike agent) (hpath : ∃ c ∈ s.agentPath.toList, c ≠ '/')
    (hunder : ¬ Absolute (s.agentPath ++ "/")) : ¬ IsAgentUrl s agent (agentUrl s agent) := by
  intro hurl
  -- both are joints with the same base, so that they could only agree if the agent path added nothing
  have hnamed := joint_iff.mp (hurl.named h.2 (not_rooted_of_http h.1) hunder)
  rw [joint_iff.mp (joint_of_lookalike h)] at hnamed
  have hlength := congrArg (fun url => url.toList.length) hnamed
  simp only [String.toList_append, List.length_append] at hlength
  have hlt := length_lt_of_path agent hpath
  omega

example : agentUrl {} "httpbin" = "http://localhost:3000/httpbin" := by decide +kernel

/-! ## Calls -/

/-- A call of an agent asks for nothing but a request to its address. -/
theorem callAgent_makes (h : ¬ Lookalike agent) (input : Value) (messages : List Value) :
    (Dispatch.callAgent s agent input messages).Makes fun c =>
      ∃ url body, IsAgentUrl s agent url ∧ c = .request ⟨"POST", url, body, []⟩ := by
  refine Action.makes_bind (Dispatch.makes_exchange ⟨_, _, isAgentUrl_agentUrl h, rfl⟩) fun response => ?_
  exact Action.makes_bind (Dispatch.makes_requireSuccess ..) fun _ => Action.makes_pure _

/-- **Agents are called at their addresses.** For all settings, the address that is computed for an id is the one that
    the rules give it: an absolute address is used unchanged, a path that begins with a slash stands directly under the
    base address, and every other id under the agent path, with one slash at the joint with the base address. All that
    a call of the agent asks for is a request there. This holds of every id that does not begin with `http` without
    being an absolute address. -/
theorem agents_addressed (s : DispatchSettings) {agent : String} (h : ¬ Lookalike agent) :
    (∀ url, agentUrl s agent = url ↔ IsAgentUrl s agent url)
      ∧ ∀ input messages, (Dispatch.callAgent s agent input messages).Makes fun c =>
        ∃ url body, IsAgentUrl s agent url ∧ c = .request ⟨"POST", url, body, []⟩ := by
  refine ⟨fun url => ⟨?_, fun hurl => (isAgentUrl_agentUrl h).unique hurl⟩, callAgent_makes h⟩
  rintro rfl
  exact isAgentUrl_agentUrl h

/-- Agents under a path of their own, at a base address with slashes at its end. -/
def remoteAgents : DispatchSettings := { baseUrl := "http://remote//", agentPath := "/agents" }

theorem summarizer_isAgentUrl : IsAgentUrl remoteAgents "summarizer" "http://remote/agents/summarizer" where
  absolute h := absurd h (by decide +kernel)
  rooted h := absurd h (by decide +kernel)
  named _ _ _ := by
    show Joint ("http://remote" ++ slashes 2) (slashes 1 ++ "agents/summarizer")
      ("http://remote" ++ "/" ++ "agents/summarizer")
    exact .mk 2 1 (by decide) (by decide)
  elsewhere _ _ h := absurd h (by decide +kernel)

/-- The summarizer is called under the agent path. -/
theorem summarizer_addressed :
    ¬ Lookalike "summarizer"
      ∧ agentUrl remoteAgents "summarizer" = "http://remote/agents/summarizer"
      ∧ (Dispatch.callAgent remoteAgents "summarizer" (.text "notes") []).Makes fun c =>
        ∃ url body, IsAgentUrl remoteAgents "summarizer" url ∧ c = .request ⟨"POST", url, body, []⟩ := by
  have hname : ¬ Lookalike "summarizer" := by decide +kernel
  obtain ⟨hurl, hcalls⟩ := agents_addressed remoteAgents hname
  exact ⟨hname, (hurl _).mpr summarizer_isAgentUrl, hcalls _ _⟩

end Address

end Runbook
