import TypedClient.Text.Cut

namespace TypedClient.Output

/-!
# Fixed parts of the client

The file of the client has a fixed frame: the base class of all groups, one group of methods for every
HTTP method, and a service that holds the groups.

* `Group`, `groups`: the groups in the order of the file.
* `headerText`: everything up to and with the base class.
* `groupText`, `serviceText`: a group and the service.
-/

/-- A group of methods: the HTTP method they all have, the field of the service that holds the group, and
    the name of its class. -/
structure Group where
  method : String
  field : String
  className : String
  deriving DecidableEq, Repr, Inhabited

/-- The groups in the order of the file. -/
def groups : List Group :=
  [⟨"GET", "get", "ApiGroupGet"⟩, ⟨"POST", "post", "ApiGroupPost"⟩, ⟨"PUT", "put", "ApiGroupPut"⟩,
    ⟨"PATCH", "patch", "ApiGroupPatch"⟩, ⟨"DELETE", "delete", "ApiGroupDelete"⟩]

/-! ### Imports -/

/-- The import of everything under one name. -/
def namespaceImport (space : String) : String :=
  "import * as " ++ space ++ " from './types';"

/-- The import of single names; nothing, if there are none. -/
def namedImport (names : List String) : String :=
  if names.isEmpty then ""
  else "import \x7b\n  " ++ String.intercalate ",\n  " names ++ "\n\x7d from './types';"

/-! ### Frame -/

/-- The lines from the first exported type up to the base class. -/
def frameLines : List String :=
  [
    "export type Method = 'GET' | 'POST' | 'PUT' | 'PATCH' | 'DELETE';",
    "",
    "export type QueryParams = Record<string, string | number | undefined>;",
    "",
    "export type MiddlewareParams = \x7b",
    "  method: Method;",
    "  route: string;",
    "  query?: QueryParams;",
    "  body?: any;",
    "\x7d",
    "",
    "export type Middleware = (params: MiddlewareParams) => Promise<any>;",
    "",
    "function interpolateParams(url: string, params: QueryParams) \x7b",
    "  let updatedUrl = url;",
    "",
    "  while (true) \x7b",
    "    const match = updatedUrl.match(/\x7b([A-Za-z_][A-Za-z0-9_]*)\x7d/);",
    "",
    "    if (!match) \x7b",
    "      break;",
    "    \x7d",
    "",
    "    const value = params[match[1]] ?? '';",
    "",
    "    updatedUrl = `$\x7bupdatedUrl.substr(0, match.index)\x7d$\x7bvalue\x7d$\x7bupdatedUrl.substr((match.index || 0) + match[0].length)\x7d`;",
    "  \x7d",
    "",
    "  return updatedUrl;",
    "\x7d",
    "",
    "class ApiGroup \x7b",
    "  public readonly method: Method;",
    "",
    "  private readonly middleware: Middleware;",
    "",
    "  public constructor(method: Method, middleware: Middleware) \x7b",
    "    this.method = method;",
    "    this.middleware = middleware;",
    "  \x7d",
    "",
    "  protected callApi(route: string, query?: QueryParams, body?: any): Promise<any> \x7b",
    "    return this.middleware(\x7b",
    "      method: this.method,",
    "      route,",
    "      query,",
    "      body,",
    "    \x7d);",
    "  \x7d",
    "\x7d"
  ]

/-- The beginning of the file.  An import that is empty leaves no more than one empty line behind. -/
def headerText (imports : String) : String :=
  Text.replaceAll "\n\n\n\n" "\n\n"
      ("/* eslint-disable @typescript-eslint/no-explicit-any */\n\n" ++ imports ++ "\n\n")
    ++ String.intercalate "\n" frameLines

/-- The class of a group with the texts of its methods. -/
def groupText (g : Group) (methods : List String) : String :=
  String.intercalate "\n"
    ["class " ++ g.className ++ " extends ApiGroup \x7b",
      "  public constructor(middleware: Middleware) \x7b",
      "    super('" ++ g.method ++ "', middleware);",
      "  \x7d",
      String.join methods,
      "\x7d"]

/-- The service that holds the groups. -/
def serviceText : String :=
  String.intercalate "\n"
    (["export class ApiService \x7b"]
      ++ groups.map (fun g => "  public readonly " ++ g.field ++ ": " ++ g.className ++ ";")
      ++ ["", "  constructor(middleware: Middleware) \x7b"]
      ++ groups.map (fun g => "    this." ++ g.field ++ " = new " ++ g.className ++ "(middleware);")
      ++ ["  \x7d", "\x7d"])

end TypedClient.Output
