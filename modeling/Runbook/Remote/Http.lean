import Runbook.Value.Json
import Runbook.Value.JsonReader

/-!
# `Remote.Http` — requests and responses

The exchange with a remote side: a request with a JSON body, and a response with a status and a
text, which may be JSON.

## Contents
- **Requests.** `Request`, with `target`, its method and address; `encodedUrl`, an address as it is
  sent.
- **Responses.** `Response`, `isSuccess` and `phrase`, the usual wording of a status.
-/

namespace Runbook

/-- A request to a remote side. -/
structure Request where
  method : String
  url : String
  body : Option Value
  headers : Keyed String

namespace Request

/-- Whether a character can stand in an address as it is. -/
def isPlainUrlChar (c : Char) : Bool :=
  0x21 ≤ c.toNat && c.toNat < 0x7f
    && (['"', '<', '>', '\x60', '\x7b', '\x7d'].contains c) = false

/-- A byte as two hexadecimal digits behind a percent sign. -/
def percent (b : UInt8) : String := "%" ++ (Text.hexText 2 b.toNat).toUpper

/-- An address as it is sent: characters that cannot stand in one are written as percent bytes. -/
def encodedUrl (url : String) : String :=
  String.join (url.toList.map fun c =>
    if isPlainUrlChar c then c.toString
    else String.join (c.toString.toUTF8.toList.map percent))

/-- Method and address. -/
def target (r : Request) : String := r.method ++ " " ++ encodedUrl r.url

end Request

/-- A response of a remote side. -/
structure Response where
  status : Nat
  text : String
  /-- The text read as JSON, null when it is not JSON. -/
  json : Value

namespace Response

/-- Statuses from 200 to 299 mean success. -/
def isSuccess (r : Response) : Bool := 200 ≤ r.status && r.status < 300

/-- A response with a JSON body. -/
def ofJson (status : Nat) (v : Value) : Response := ⟨status, v.toPlainJson, v⟩

/-- A response with a text. -/
def ofText (status : Nat) (text : String) : Response :=
  ⟨status, text, (Value.ofJson? text).getD .null⟩

/-- The usual wordings of statuses. -/
def phrases : List (Nat × String) :=
  [(100, "Continue"), (101, "Switching Protocols"), (102, "Processing"), (103, "Early Hints"),
   (200, "OK"), (201, "Created"), (202, "Accepted"), (203, "Non-Authoritative Information"),
   (204, "No Content"), (205, "Reset Content"), (206, "Partial Content"), (207, "Multi-Status"),
   (208, "Already Reported"), (226, "IM Used"), (300, "Multiple Choices"),
   (301, "Moved Permanently"), (302, "Found"), (303, "See Other"), (304, "Not Modified"),
   (305, "Use Proxy"), (307, "Temporary Redirect"), (308, "Permanent Redirect"),
   (400, "Bad Request"), (401, "Unauthorized"), (402, "Payment Required"), (403, "Forbidden"),
   (404, "Not Found"), (405, "Method Not Allowed"), (406, "Not Acceptable"),
   (407, "Proxy Authentication Required"), (408, "Request Timeout"), (409, "Conflict"),
   (410, "Gone"), (411, "Length Required"), (412, "Precondition Failed"),
   (413, "Request Entity Too Large"), (414, "Request-URI Too Long"),
   (415, "Unsupported Media Type"), (416, "Requested Range Not Satisfiable"),
   (417, "Expectation Failed"), (418, "I'm a teapot"), (421, "Misdirected Request"),
   (422, "Unprocessable Entity"), (423, "Locked"), (424, "Failed Dependency"),
   (425, "Too Early"), (426, "Upgrade Required"), (428, "Precondition Required"),
   (429, "Too Many Requests"), (431, "Request Header Fields Too Large"),
   (451, "Unavailable For Legal Reasons"), (500, "Internal Server Error"),
   (501, "Not Implemented"), (502, "Bad Gateway"), (503, "Service Unavailable"),
   (504, "Gateway Timeout"), (505, "HTTP Version Not Supported"),
   (506, "Variant Also Negotiates"), (507, "Insufficient Storage"), (508, "Loop Detected"),
   (510, "Not Extended"), (511, "Network Authentication Required")]

/-- The usual wording of a status, empty when there is none. -/
def phrase (status : Nat) : String :=
  ((phrases.find? fun entry => entry.1 = status).map (·.2)).getD ""

end Response

end Runbook
