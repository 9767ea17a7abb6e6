import PvsIndex.Json.Schema

/-! What a client tells about itself when it connects. -/

namespace PvsIndex.Client

open Schema

def options (fields : List (String × Schema)) : Schema :=
  record (fields.map fun (name, schema) => (name, .optional, schema))

def flags (names : List String) : List (String × Schema) :=
  names.map (·, flag)

def capability (extra : List (String × Schema)) : Schema :=
  options (("dynamicRegistration", flag) :: extra)

def markup : Schema :=
  list (choice ["plaintext", "markdown"])

def valueSet (numbers : List Nat) : Schema :=
  list (number numbers)

def valuesFrom (numbers : List Nat) : Schema :=
  options [("valueSet", valueSet numbers)]

/-- The tags that a client knows, or whether it knows any. The value is kept whole, and it is
nested no deeper than `depth`. -/
def tags (depth : Nat) (numbers : List Nat) : Schema :=
  keep depth (either flag (record [("valueSet", .required, valueSet numbers)]))

/-- The kinds of symbols, and one for kinds that are not known. -/
def symbolKinds : List Nat :=
  List.range' 1 26 ++ [255]

def completionKinds : List Nat :=
  List.range' 1 25

def workspace : Schema :=
  options
    [ ("applyEdit", flag),
      ("workspaceEdit", options
        [ ("documentChanges", flag),
          ("resourceOperations", list (choice ["create", "rename", "delete"])),
          ("failureHandling",
            choice ["abort", "transactional", "textOnlyTransactional", "undo"]) ]),
      ("didChangeConfiguration", capability []),
      ("didChangeWatchedFiles", capability []),
      ("symbol", capability [("symbolKind", valuesFrom symbolKinds)]),
      ("executeCommand", capability []),
      ("workspaceFolders", flag),
      ("configuration", flag) ]

def textDocument : Schema :=
  options
    [ ("synchronization", capability (flags ["willSave", "willSaveWaitUntil", "didSave"])),
      ("completion", capability
        [ ("completionItem", record
            [ ("snippetSupport", .optional, flag),
              ("commitCharactersSupport", .optional, flag),
              ("documentationFormat", .optional, markup),
              ("deprecatedSupport", .optional, flag),
              ("preselectSupport", .optional, flag),
              ("tagSupport", .omissible, tags 121 [1]) ]),
          ("completionItemKind", valuesFrom completionKinds),
          ("contextSupport", flag) ]),
      ("hover", capability [("contentFormat", markup)]),
      ("signatureHelp", capability
        [ ("signatureInformation", options
            [ ("documentationFormat", markup),
              ("parameterInformation", options [("labelOffsetSupport", flag)]) ]),
          ("contextSupport", flag) ]),
      ("references", capability []),
      ("documentHighlight", capability []),
      ("documentSymbol", capability
        [ ("symbolKind", valuesFrom symbolKinds),
          ("hierarchicalDocumentSymbolSupport", flag) ]),
      ("formatting", capability []),
      ("rangeFormatting", capability []),
      ("onTypeFormatting", capability []),
      ("declaration", capability [("linkSupport", flag)]),
      ("definition", capability [("linkSupport", flag)]),
      ("typeDefinition", capability [("linkSupport", flag)]),
      ("implementation", capability [("linkSupport", flag)]),
      ("codeAction", capability
        [ ("codeActionLiteralSupport", record
            [("codeActionKind", .required, record [("valueSet", .required, list text)])]),
          ("isPreferredSupport", flag) ]),
      ("codeLens", capability []),
      ("documentLink", capability [("tooltipSupport", flag)]),
      ("colorProvider", capability []),
      ("rename", capability [("prepareSupport", flag)]),
      ("publishDiagnostics", record
        [ ("relatedInformation", .optional, flag),
          ("tagSupport", .omissible, tags 122 [1, 2]) ]),
      ("foldingRange", capability [("rangeLimit", word), ("lineFoldingOnly", flag)]) ]

def capabilities : Schema :=
  options
    [ ("workspace", workspace),
      ("textDocument", textDocument),
      ("window", options [("workDoneProgress", flag)]),
      ("experimental", keep 124 anything) ]

def folder : Schema :=
  record [("uri", .required, uri), ("name", .required, text)]

/-- A message may be nested 127 levels deep where its values are kept. -/
def initialization : Schema :=
  record
    [ ("processId", .optional, word),
      ("rootPath", .optional, text),
      ("rootUri", .optional, uri),
      ("initializationOptions", .optional, keep 125 anything),
      ("capabilities", .required, capabilities),
      ("trace", .optional, choice ["off", "messages", "verbose"]),
      ("workspaceFolders", .optional, list folder),
      ("clientInfo", .optional,
        record [("name", .required, text), ("version", .optional, text)]) ]

end PvsIndex.Client
