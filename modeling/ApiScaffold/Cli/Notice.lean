import ApiScaffold.Fault
import ApiScaffold.Watch.Watcher

set_option autoImplicit false

/-! # Notices

What the command line tells its user. A notice about a fault shows the fault by a function that is
given, so that the fault itself stays known until the text is made. -/

namespace ApiScaffold.Cli

/-- A notice to the user. -/
inductive Notice where
  | configUsed (path : String)
  | configWritten (path : String)
  | nothingFound (directory : String)
  | started (specs : Nat)
  | loading (spec : String)
  | generating (resource : String)
  | skipped (models : List String)
  | saving (files : Nat)
  | saved (resource directory : String)
  | finished
  | failed (fault : Fault)
  | watching (directory : String)
  | changed (event : Event)
  | regenerationFailed (fault : Fault)
  | stopped
deriving DecidableEq, Repr, Inhabited

/-- A change in the words of the user. -/
def changeLabel : Change → String
  | .added => "добавлен"
  | .changed => "изменен"
  | .deleted => "удален"

/-- The text of a notice, with faults shown by `describe`. -/
def Notice.text (describe : Fault → String) : Notice → String
  | .configUsed path => "📋 Используется конфиг " ++ path
  | .configWritten path => "✅ Создан конфиг файл " ++ path
  | .nothingFound directory => "⚠️ Спецификации не найдены в " ++ directory
  | .started specs => "🚀 Генерация из " ++ toString specs ++ " спецификаций"
  | .loading spec => "📥 Загрузка спецификации " ++ spec ++ "..."
  | .generating resource => "⚙️ Генерация кода для ресурса " ++ resource ++ "..."
  | .skipped models => "⚠️ Пропущены модели без схемы: " ++ ", ".intercalate models
  | .saving files => "💾 Сохранение " ++ toString files ++ " файлов..."
  | .saved resource directory => "📦 Файлы ресурса " ++ resource ++ " созданы в: " ++ directory
  | .finished => "✅ Генерация завершена успешно!"
  | .failed fault => "❌ Ошибка генерации: " ++ describe fault
  | .watching directory => "👀 Отслеживание изменений в " ++ directory ++ "..."
  | .changed event => "📝 Файл " ++ changeLabel event.1 ++ ": " ++ event.2
  | .regenerationFailed fault => "❌ Ошибка перегенерации: " ++ describe fault
  | .stopped => "🛑 Наблюдение остановлено"

end ApiScaffold.Cli
